import CodeAtlas.CallGraph
import CodeAtlas.Fault

/-!
# Resolving missing functions by name

A missing function is resolved by a function whose name has the same last part: the callers of the
missing one are redirected to it. If several functions have that last part, the scopes of the
callers decide.
-/

namespace CodeAtlas.Resolution

def lastPart (name : String) : String := (Text.split name "::").getLastD ""

def metadataOf (f : Function) : Except Fault (Dict Json) :=
  match f.metadata with
  | some data => .ok data
  | none => .error (.missingPart "'Function' object has no attribute 'metadata'")

def replaceCall (missing target : String) (f : Function) : Function :=
  { f with calls := f.calls.erase missing }.addCall target

/-- Redirects one caller of a missing function to the function stored under a key. -/
def redirectCaller (missing key : String) (fs : Functions) (caller : String) : Functions :=
  match fs.get? caller, fs.get? key with
  | some f, some target =>
    if f.calls.contains missing then
      Dict.adjust (Dict.adjust fs caller (replaceCall missing target.name)) key (·.addCaller caller)
    else fs
  | _, _ => fs

/-- Redirects all callers of a missing function to the function stored under a key. -/
def redirect (missing key : String) (fs : Functions) : Functions :=
  fs.keys.foldl (redirectCaller missing key) fs

def candidates (fs : Functions) (part : String) : Functions :=
  fs.filter fun (key, _) => lastPart key == part

def inScope? (scope : Json) : Functions → Except Fault (Option String)
  | [] => .ok none
  | (key, f) :: rest => do
    match (← metadataOf f).get? "namespace" with
    | some s => if s == scope then return some key else inScope? scope rest
    | none => inScope? scope rest

/-- The candidate in the scope of a caller; of several callers the last one that has a candidate
decides. -/
def scopeCandidate? (fs : Functions) (missing : String) (options : Functions) :
    Except Fault (Option String) :=
  fs.foldlM (fun best (_, f) => do
    if f.calls.contains missing then
      match (← metadataOf f).get? "namespace" with
      | some scope =>
        match ← inScope? scope options with
        | some key => return some key
        | none => return best
      | none => return best
    else return best) none

/-- The state of a resolution: the functions as they stand and the names resolved so far. -/
structure Progress where
  functions : Functions
  resolved : List String := []

def Progress.redirect (p : Progress) (missing key : String) : Progress :=
  { functions := Resolution.redirect missing key p.functions, resolved := p.resolved ++ [missing] }

/-- Tries to resolve a missing function by its name. Several candidates are told apart by scope
only if `byScope` says so. -/
def resolveByName (byScope : Bool) (p : Progress) (missing : String) : Except Fault Progress := do
  if p.functions.has missing then return { p with resolved := p.resolved ++ [missing] }
  else
    match candidates p.functions (lastPart missing) with
    | [] => return p
    | [(key, _)] => return p.redirect missing key
    | options =>
      if byScope then
        match ← scopeCandidate? p.functions missing options with
        | some key => return p.redirect missing key
        | none => return p
      else return p

end CodeAtlas.Resolution

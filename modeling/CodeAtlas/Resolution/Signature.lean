import CodeAtlas.CrossReferences
import CodeAtlas.Resolution.Basic

/-!
# Resolving missing functions by signature

What the call sites of a missing function tell about it, the number and types of its arguments and
the class it is used in, is compared with what is known about the functions that were found. The
best candidate wins if it is good enough.
-/

namespace CodeAtlas.Resolution

def paramCount? (data : Dict Json) : Option Json :=
  if data.has "signature" then some ((data.get? "param_count").getD (.int 0)) else none

def checkSignatures (fs : Functions) : Except Fault Unit :=
  fs.forM fun (_, f) => do
    let data ← metadataOf f
    match data.has "signature", data.get? "param_types" with
    | true, some types => if types.truthy then discard (types.joinTexts "|") else return
    | _, _ => return

def withParamCount (fs : Functions) (count : Json) : Functions :=
  fs.filter fun (_, f) =>
    match f.metadata.bind paramCount? with
    | some n => n.shown == count.shown
    | none => false

structure Clues where
  counts : List Json := []
  weights : Dict Nat := []

def Clues.weigh (c : Clues) (clue : String) (weight : Nat) : Clues :=
  { c with weights := Dict.set c.weights clue ((c.weights.get? clue).getD 0 + weight) }

def readCallSite (missing : String) (c : Clues) (site : Json) : Except Fault Clues := do
  if (← site.fieldOr "target" .null) == .str missing then
    let c := match site.get? "arg_count" with
      | some n => { c with counts := c.counts ++ [n] }
      | none => c
    let c ← match site.get? "arg_types" with
      | some types => do pure (c.weigh ("params:" ++ (← types.joinTexts "|")) 2)
      | none => pure c
    match site.get? "context_type" with
    | some type => return c.weigh ("context:" ++ type.shown) 1
    | none => return c
  else return c

def readClues (fs : Functions) (missing : String) : Except Fault Clues := do
  let clues ← fs.foldlM (fun c (_, f) => do
    if f.calls.contains missing then
      let sites ← (((← metadataOf f).get? "call_sites").getD (.arr [])).walk
      sites.foldlM (readCallSite missing) c
    else return c) {}
  clues.counts.forM Json.checkKey
  return clues

def mostCommon? (items : List Json) : Option Json :=
  (items.foldl (fun best item =>
    let n := items.countP (· == item)
    match best with
    | some (_, m) => if m < n then some (item, n) else best
    | none => some (item, n)) none).map (·.1)

def Clues.count? (c : Clues) : Option Json :=
  match mostCommon? c.counts with
  | some .null | none => none
  | some n => some n

def behind (mark clue : String) : String := ((Text.split clue mark).drop 1).headD ""

def clueScore (data : Dict Json) (clue : String) (weight : Nat) : Except Fault Nat := do
  if Text.startsWith clue "params:" then
    match data.get? "param_types" with
    | some types =>
      return if (← types.joinTexts "|") == behind "params:" clue then weight * 2 else 0
    | none => return 0
  else if Text.startsWith clue "context:" then
    match data.get? "class" with
    | some c => return if c == .str (behind "context:" clue) then weight * 3 else 0
    | none => return 0
  else return 0

def scopeScore (fs : Functions) (missing : String) (data : Dict Json) : Except Fault Nat :=
  match data.get? "namespace" with
  | none => .ok 0
  | some scope =>
    fs.foldlM (fun n (_, f) => do
      if f.calls.contains missing then
        match (← metadataOf f).get? "namespace" with
        | some s => return if s == scope then n + 4 else n
        | none => return n
      else return n) 0

def score (fs : Functions) (missing : String) (clues : Clues) (candidate : Function) :
    Except Fault Nat := do
  let data ← metadataOf candidate
  let name := if lastPart candidate.name == lastPart missing then 5 else 0
  let count := match clues.count?, data.get? "param_count" with
    | some n, some m => if m == n then 3 else 0
    | _, _ => 0
  let words ← clues.weights.foldlM (fun n (clue, weight) => do
    return n + (← clueScore data clue weight)) 0
  return name + count + words + (← scopeScore fs missing data)

/-- The functions that a missing one may stand for: those with the likely number of parameters,
and of these the ones of the same name if there are any. -/
def potentialMatches (fs : Functions) (missing : String) (clues : Clues) : Functions :=
  match clues.count? with
  | none => []
  | some n =>
    let found := withParamCount fs n
    let named := found.filter fun (_, f) => lastPart f.name == lastPart missing
    if named.isEmpty then found else named

def best? (fs : Functions) (missing : String) (clues : Clues) (options : Functions) :
    Except Fault (Option (String × Nat)) :=
  options.foldlM (fun best (key, f) => do
    let n ← score fs missing clues f
    match best with
    | some (_, m) => return if m < n then some (key, n) else best
    | none => return some (key, n)) none

def threshold : Nat := 2

def resolveBySignature (p : Progress) (missing : String) : Except Fault Progress := do
  let clues ← readClues p.functions missing
  match ← best? p.functions missing clues (potentialMatches p.functions missing clues) with
  | some (key, n) => return if threshold < n then p.redirect missing key else p
  | none => return p

/-- Resolves missing functions. The names are tried in the order `first`, and then the signatures
of those that are left in the order `second`. -/
def resolveIn (first second : List String) (full : Bool) (g : CallGraph) :
    Except Fault (CallGraph × Nat) := do
  if full then checkSignatures g.functions
  let p ← first.foldlM (resolveByName (!full)) { functions := g.functions }
  let p ←
    if full then (second.filter (!p.resolved.contains ·)).foldlM resolveBySignature p
    else pure p
  return ({ functions := p.functions, missing := g.missing.filter (!p.resolved.contains ·) },
    p.resolved.length)

/-- Resolves missing functions and counts them. In the basic mode nothing is tried. -/
def resolveMissing (mode : CrossReferenceMode) (g : CallGraph) :
    Except Fault (CallGraph × Option Nat) := do
  if mode == .basic then return (g, none)
  else
    let names := Text.sorted g.missing
    let (g, n) ← resolveIn names names (mode == .full) g
    return (g, some n)

end CodeAtlas.Resolution

import CodeAtlas.Ast
import CodeAtlas.Function.Basic
import CodeAtlas.Pattern.Parse

/-!
# Calls

The calls made by a function. Calls are found twice: among the nodes below the function, and by
patterns in the text of each of these nodes. A call found among the nodes of one level is not
looked for again in the text of that level.
-/

namespace CodeAtlas.Extraction

def qualifiedCallPattern : Pattern := .ofString "(\\w+)::(\\w+)\\s*\\("

def plainCallPattern : Pattern := .ofString "(?<![:\\w])(\\w+)\\s*\\("

def keywords : List String := ["if", "for", "while", "switch", "return", "sizeof", "catch"]

def qualify (scope name : String) : String := scope ++ "::" ++ name

def calledName (r : Referent) : String :=
  match r.kind, r.scope with
  | .method, some s => if s.kind == .classDecl then qualify s.name r.name else r.name
  | _, _ => r.name

/-- The functions found so far, and the calls found among the nodes of one level. -/
structure Findings where
  functions : Functions
  found : List String

def isRecorded (fs : Functions) (caller called : String) : Bool :=
  match fs.get? caller with
  | some f => f.calls.contains called
  | none => true

def Findings.addCall (s : Findings) (caller called : String) : Findings :=
  if isRecorded s.functions caller called then s
  else
    { functions := Dict.adjust s.functions caller (·.addCall called),
      found := addNew s.found called }

def recordCaller (fs : Functions) (caller called : String) : Functions :=
  Dict.adjust fs called (·.addCaller caller)

/-- The member called by a reference to it that stands right before a call: the name qualified by
the first part of its type. -/
def memberCall? (info : NodeInfo) (next : Option Ast) : Option String :=
  match next, info.type with
  | some n, some t =>
    if n.kind == .call && !info.name.isEmpty && t.isValid && Text.occursIn "::" t.name then
      let scope := (Text.split t.name "::").headD ""
      if scope.isEmpty then none else some (qualify scope info.name)
    else none
  | _, _ => none

/-- Records the call at a node. The front end has no kind of its own for the call of a member
(`HAS_MEMBER_CALL_EXPR` is false), so the branch for it is dead and is left out. -/
def noteNode (caller : String) (info : NodeInfo) (next : Option Ast) (s : Findings) : Findings :=
  match info.kind with
  | .call =>
    match info.referent with
    | some r =>
      let called := calledName r
      let s := s.addCall caller called
      { s with functions := recordCaller s.functions caller called }
    | none => s
  | .memberRef =>
    match memberCall? info next with
    | some called => s.addCall caller called
    | none => s
  | _ => s

/-- Records a call seen in a text with both sides, unless it was found among the nodes. -/
def noteText (caller : String) (found : List String) (fs : Functions) (called : String) :
    Functions :=
  if found.contains called then fs
  else recordCaller (Dict.adjust fs caller (·.addCall called)) caller called

def callsInText (text : String) : List String :=
  ((qualifiedCallPattern.findAll text).map fun m => qualify (m.group 1) (m.group 2)) ++
    ((plainCallPattern.findAll text).map (·.group 1)).filter (!keywords.contains ·)

mutual

def findCalls (caller : String) : Ast → Functions → Functions
  | .node info children, fs =>
    let s := findCallsAmong caller children ⟨fs, []⟩
    (callsInText info.text).foldl (noteText caller s.found) s.functions

def findCallsAmong (caller : String) : List Ast → Findings → Findings
  | [], s => s
  | a :: rest, s =>
    let s := noteNode caller a.info rest.head? s
    findCallsAmong caller rest { s with functions := findCalls caller a s.functions }

end

end CodeAtlas.Extraction

import CodeAtlas.ClassHierarchy.Basic
import CodeAtlas.Json.Access

/-!
# Working on a class hierarchy

A workspace holds a hierarchy whose tables of signatures are shared with what was shown of it: a
class that was shown before shows the signatures known at the end.
-/

namespace CodeAtlas

structure ClassWorkspace where
  hierarchy : ClassHierarchy := {}
  tables : Dict Nat := []
  contents : Array Json := #[]

/-- What is shown of a hierarchy: data, a class with the number of its table, or all classes. -/
inductive ClassView where
  | data (j : Json)
  | node (table : Nat) (c : ClassNode)
  | nodes (l : List (String × Nat × ClassNode))

namespace ClassWorkspace

def signatures (s : ClassWorkspace) (name : String) : Json :=
  ((s.hierarchy.getClass? name).map (·.signatures)).getD .null

def newTable (s : ClassWorkspace) (name : String) : ClassWorkspace :=
  { s with
    tables := Dict.set s.tables name s.contents.size
    contents := s.contents.push (s.signatures name) }

def noteTable (s : ClassWorkspace) (name : String) : ClassWorkspace :=
  match s.tables.get? name with
  | some n => { s with contents := s.contents.setIfInBounds n (s.signatures name) }
  | none => s

def table (s : ClassWorkspace) (name : String) : Nat := (s.tables.get? name).getD 0

def showClass (s : ClassWorkspace) (c : ClassNode) : ClassView := .node (s.table c.name) c

def showName (s : ClassWorkspace) (name : String) : ClassView :=
  ((s.hierarchy.getClass? name).map s.showClass).getD (.data .null)

def showAll (s : ClassWorkspace) : ClassView :=
  .nodes (s.hierarchy.classes.map fun (k, c) => (k, s.table c.name, c))

def classJson (s : ClassWorkspace) (table : Nat) (c : ClassNode) : Json :=
  { c with signatures := s.contents.getD table .null }.toJson

def viewJson (s : ClassWorkspace) : ClassView → Json
  | .data j => j
  | .node t c => s.classJson t c
  | .nodes l => .arr (l.map fun (k, t, c) => .arr [.str k, s.classJson t c])

def find (s : ClassWorkspace) (name : String) : Except Fault ClassNode :=
  match s.hierarchy.getClass? name with
  | some c => .ok c
  | none => .error (.missingKey name)

def create (s : ClassWorkspace) (name : String) : ClassWorkspace :=
  let isNew := !s.hierarchy.classes.has name
  let s := { s with hierarchy := s.hierarchy.ensure name }
  if isNew then s.newTable name else s

def add (s : ClassWorkspace) (c : ClassNode) : ClassWorkspace :=
  ({ s with hierarchy := s.hierarchy.addClass c }).newTable c.name

def load (s : ClassWorkspace) (h : ClassHierarchy) : ClassWorkspace :=
  h.classes.keys.foldl newTable { s with hierarchy := h }

end ClassWorkspace

/-- Work on a workspace. Work that fails keeps what it changed before. -/
abbrev ClassWork := ExceptT Fault (StateM ClassWorkspace)

namespace ClassWorkspace

def change (name : String) (f : ClassNode → Except Fault ClassNode) : ClassWork ClassView := do
  let c ← f (← (← get).find name)
  modify fun s => ({ s with hierarchy := s.hierarchy.adjust name fun _ => c }).noteTable name
  return (← get).showClass c

def takeStep (step : Json → ClassWork ClassView) (fault : Fault → Json)
    (done : List ClassView × ClassWorkspace) (j : Json) : List ClassView × ClassWorkspace :=
  match (step j).run.run done.2 with
  | (.ok v, s) => (v :: done.1, s)
  | (.error e, s) => (.data (fault e) :: done.1, s)

/-- Takes steps on an empty hierarchy; what they show comes last first. -/
def work (step : Json → ClassWork ClassView) (fault : Fault → Json) (steps : List Json) :
    List ClassView × ClassWorkspace :=
  steps.foldl (takeStep step fault) ([], {})

def run (step : Json → ClassWork ClassView) (fault : Fault → Json) (steps : List Json) :
    List Json :=
  let (views, s) := work step fault steps
  views.reverse.map s.viewJson

end ClassWorkspace

end CodeAtlas

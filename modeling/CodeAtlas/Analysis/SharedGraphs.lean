import CodeAtlas.Analysis.Merge
import CodeAtlas.CrossReferences

/-!
# Graphs that share functions

A merge puts the functions of one graph into another one without copying them: what is learned of
a function later shows in all graphs that hold it. Functions are kept once, by number; graphs
refer to the numbers.
-/

namespace CodeAtlas

structure NumberedGraph where
  functions : Dict Nat := []
  missing : List String := []
deriving Repr, Inhabited

/-- Several graphs over common functions. -/
structure SharedGraphs where
  records : Array Function := #[]
  graphs : Dict NumberedGraph := []
deriving Inhabited

namespace SharedGraphs

def newRecord (s : SharedGraphs) (f : Function) : SharedGraphs × Nat :=
  ({ s with records := s.records.push f }, s.records.size)

def addEntry (s : SharedGraphs × Dict Nat) (entry : String × Function) : SharedGraphs × Dict Nat :=
  let added := s.1.newRecord entry.2
  (added.1, Dict.set s.2 entry.1 added.2)

def addGraph (s : SharedGraphs) (name : String) (g : CallGraph) : SharedGraphs :=
  let added := g.functions.foldl addEntry (s, [])
  { added.1 with
    graphs := Dict.set added.1.graphs name { functions := added.2, missing := g.missing } }

def record (s : SharedGraphs) (n : Nat) : Function := s.records.getD n default

def adjustRecord (s : SharedGraphs) (n : Nat) (change : Function → Function) : SharedGraphs :=
  { s with records := s.records.modify n change }

def graph (s : SharedGraphs) (name : String) : NumberedGraph := (s.graphs.get? name).getD {}

def view (s : SharedGraphs) (name : String) : CallGraph :=
  let g := s.graph name
  { functions := g.functions.map fun (key, n) => (key, s.record n), missing := g.missing }

def place (s : SharedGraphs) (name : String) (n : Nat) : SharedGraphs :=
  let g := s.graph name
  let g := { g with functions := Dict.set g.functions (s.record n).name n }
  { s with graphs := Dict.set s.graphs name g }

def takeOver (target : String) (s : SharedGraphs) (entry : String × Nat) : SharedGraphs :=
  match (s.graph target).functions.get? entry.1 with
  | some m => s.adjustRecord m (·.unite (s.record entry.2))
  | none => s.place target entry.2

/-- Puts a graph into another one. New functions become common to both. -/
def merge (s : SharedGraphs) (target source : String) : SharedGraphs :=
  let s := (s.graph source).functions.foldl (takeOver target) s
  let t := s.graph target
  let t := { t with missing := addAllNew t.missing (s.graph source).missing }
  { s with graphs := Dict.set s.graphs target t }

def crossReference (s : SharedGraphs) (name : String) (mode : CrossReferenceMode) : SharedGraphs :=
  let after := crossReferences mode (s.view name).functions
  (s.graph name).functions.foldl (fun s (key, n) =>
    match after.get? key with
    | some f => s.adjustRecord n fun _ => f
    | none => s) s

end SharedGraphs

end CodeAtlas

import CodeAtlas.CallGraph
import CodeAtlas.Fault

/-!
# Plain call graphs

A plain graph knows of each function where it stands, what it calls and what calls it. A call is
taken in only between functions of the graph. Beside the functions it keeps count of them and of
the calls taken in.
-/

namespace CodeAtlas

structure PlainFunction where
  name : String
  file : Json := .null
  line : Json := .null
  metadata : Json := .obj []
  calls : List String := []
  calledBy : List String := []
deriving Inhabited, Repr

structure PlainGraph where
  functions : Dict PlainFunction := []
  files : List String := []
  functionCount : Nat := 0
  relationCount : Nat := 0
deriving Inhabited, Repr

namespace PlainGraph

/-- The graph with a function, unless one of the same name is there. -/
def addFunction (g : PlainGraph) (f : PlainFunction) : PlainGraph :=
  if g.functions.has f.name then g
  else
    { g with
      functions := Dict.set g.functions f.name { f with calls := [], calledBy := [] }
      files := match f.file with
        | .str s => if s.isEmpty then g.files else addNew g.files s
        | _ => g.files
      functionCount := g.functionCount + 1 }

def takesCall (g : PlainGraph) (caller callee : String) : Bool :=
  g.functions.has caller && g.functions.has callee

def addCall (g : PlainGraph) (caller callee : String) : PlainGraph :=
  if g.takesCall caller callee then
    let fs := Dict.adjust g.functions caller fun f => { f with calls := addNew f.calls callee }
    { g with
      functions := Dict.adjust fs callee fun f => { f with calledBy := addNew f.calledBy caller }
      relationCount := g.relationCount + 1 }
  else g

def merge (g other : PlainGraph) : PlainGraph :=
  let g := other.functions.foldl (fun g (_, f) => g.addFunction f) g
  other.functions.foldl
    (fun g (name, f) => f.calls.foldl (fun g callee => g.addCall name callee) g) g

end PlainGraph

inductive AnyGraph where
  | full (g : CallGraph)
  | plain (g : PlainGraph)

namespace AnyGraph

def size : AnyGraph → Nat
  | .full g => g.functions.length
  | .plain g => g.functions.length

/-- Puts a graph into another one. Only plain graphs take others in, and only plain ones or such
without functions. -/
def merge : AnyGraph → AnyGraph → Except Fault AnyGraph
  | .plain g, .plain other => .ok (.plain (g.merge other))
  | .plain g, .full other =>
    if other.functions.isEmpty then .ok (.plain g)
    else .error (.wrongShape "'Function' object is not subscriptable")
  | .full _, _ => .error (.missingPart "'CallGraph' object has no attribute 'merge'")

end AnyGraph

end CodeAtlas

import CodeAtlas.Analysis.SharedGraphs
import CodeAtlas.CallGraph.Document

/-!
# Commands on shared graphs

Work on shared graphs as a list of commands. A command is a list: a word, then names and data. What
is shown of a function changes with the work that follows: the lists of its relations grow on, all
else is as it was.
-/

namespace CodeAtlas

structure ShownFunction where
  number : Nat
  now : Function

inductive View where
  | data (j : Json)
  | function (x : ShownFunction)
  | graph (functions : List (String × ShownFunction)) (missing : List String)

namespace SharedGraphs

def showFunction (s : SharedGraphs) (n : Nat) : ShownFunction := ⟨n, s.record n⟩

def showGraph (s : SharedGraphs) (name : String) : View :=
  let g := s.graph name
  .graph (g.functions.map fun (k, n) => (k, s.showFunction n)) g.missing

def functionJson (s : SharedGraphs) (x : ShownFunction) : Json :=
  (x.now.withLaterLists (s.record x.number)).toJson

def viewJson (s : SharedGraphs) : View → Json
  | .data j => j
  | .function x => s.functionJson x
  | .graph l missing =>
    .obj [("functions", .arr (l.map fun (k, x) => .arr [.str k, s.functionJson x])),
      ("missing", .ofStrings (Text.sortedSet missing))]

/-- Takes steps that show something each; a step that fails shows its fault. -/
def run (step : SharedGraphs → Json → Except Fault (View × SharedGraphs)) (fault : Fault → Json)
    (s : SharedGraphs) (steps : List Json) : List Json :=
  let (views, s) := steps.foldl (fun (out, s) j =>
    match step s j with
    | .ok (v, s) => (v :: out, s)
    | .error e => (View.data (fault e) :: out, s)) (([] : List View), s)
  views.reverse.map s.viewJson

/-! ### Commands -/

/-- Carries out a command on the graph `g`: adds functions, missing functions or relations, or shows
something. -/
def functionCommand (s : SharedGraphs) (j : Json) : Except Fault (View × SharedGraphs) := do
  let g := s.graph "g"
  let on := fun (change : Function → String → Function) => do
    match g.functions.get? (j.wordAt 1) with
    | some n =>
      let s := s.adjustRecord n (change · (j.wordAt 2))
      return (View.function (s.showFunction n), s)
    | none => throw (Fault.missingKey (j.wordAt 1))
  match j.wordAt 0 with
  | "add" =>
    if ((j.item 1).get? "name").isNone then throw (.wrongShape "missing argument: 'name'")
    let (s, n) := s.newRecord (← Function.ofJson "" (j.item 1))
    return (.data .null, s.place "g" n)
  | "missing" =>
    let g := { g with missing := addNew g.missing (j.wordAt 1) }
    return (.data .null, { s with graphs := Dict.set s.graphs "g" g })
  | "get" =>
    let shown := (g.functions.get? (j.wordAt 1)).map fun n => .function (s.showFunction n)
    return (shown.getD (.data .null), s)
  | "dump" => return (s.showGraph "g", s)
  | "call" => on Function.addCall
  | "caller" => on Function.addCaller
  | "specialization" => on Function.addSpecialization
  | "override" => on Function.addOverride
  | "sfinae" => on Function.addSfinaeTechnique
  | "concept" => on Function.addConceptRequirement
  | "constraint" => on Function.addConstraintExpression
  | m => throw (.unknownName m)

/-- Carries out a command on one of several graphs: merges another one, follows references or shows
something. -/
def graphCommand (s : SharedGraphs) (j : Json) : Except Fault (View × SharedGraphs) := do
  let name := j.wordAt 1
  let known := fun (name : String) =>
    if s.graphs.has name then pure () else throw (Fault.missingKey name)
  known name
  match j.wordAt 0 with
  | "merge" =>
    known (j.wordAt 2)
    let s := s.merge name (j.wordAt 2)
    return (s.showGraph name, s)
  | "cross" =>
    let s := s.crossReference name (.ofString (j.wordAt 2))
    return (s.showGraph name, s)
  | "dump" => return (s.showGraph name, s)
  | "missing" => return (.data (.ofSet (s.view name).unresolved), s)
  | m => throw (.unknownName m)

end SharedGraphs

end CodeAtlas

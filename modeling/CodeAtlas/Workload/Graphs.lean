import CodeAtlas.Cflow
import CodeAtlas.Dot
import CodeAtlas.Workload.Sources

/-!
# Workloads on written call graphs

A call graph of a given size is written as a text and read again.
-/

namespace CodeAtlas.Workload

/-- An outline for each function that the main function calls, which calls a helper, and one in
which the main function calls the helper itself. -/
def callOutlines (size : Nat) : List Cflow.Outline :=
  let helper := Cflow.Outline.node "helper" 1 []
  (List.range size).map
    (fun i => .node "main" 1 [.node ("func_" ++ toString i) (i + 2) [helper]]) ++
    [.node "main" 1 [helper]]

/-- Reading an outline: how often the first four functions call and are called, and the names of
the functions that are not numbered. -/
def outlines (size : Nat) : Json :=
  let g := Cflow.parse (Cflow.render (callOutlines size)) "main.c"
  let (inner, outer) := g.functions.partition fun (name, _) => Text.startsWith name "func_"
  .arr [.arr ((inner.take 4).map fun (name, f) =>
      .arr [.str name, count f.calls.length, count f.calledBy.length]),
    .ofSet (Dict.keys outer)]

/-- Functions in a row that each call the next one; the last one calls a function that is not
declared. -/
def callRow (size : Nat) : Dot.Drawing where
  boxes := numbered size fun i => ⟨"f_" ++ i, "f_" ++ i ++ ".c", 1⟩
  calls := (List.range size).map fun i => ("f_" ++ toString i, "f_" ++ toString (i + 1))

/-- Reading a drawing: the number of functions, and of functions called but not declared. -/
def drawings (size : Nat) : Json :=
  let g := Dot.parse (callRow size).render
  .arr [count g.functions.length, count g.missing.length]

end CodeAtlas.Workload

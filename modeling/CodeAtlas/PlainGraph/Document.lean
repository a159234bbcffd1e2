import CodeAtlas.CallGraph.Document
import CodeAtlas.PlainGraph

/-!
# Plain call graphs as documents

A document lists functions, with file, line and further data, and then calls.
-/

namespace CodeAtlas

def PlainFunction.ofItems (items : List Json) : PlainFunction :=
  let data := items.getD 3 .null
  { name := (items.getD 0 .null).text, file := items.getD 1 .null, line := items.getD 2 .null
    metadata := if data.truthy then data else .obj [] }

def PlainFunction.toJson (f : PlainFunction) : Json :=
  .obj [("name", .str f.name), ("file_path", f.file), ("line_number", f.line),
    ("metadata", f.metadata), ("calls", .ofStrings (Text.sorted f.calls)),
    ("called_by", .ofStrings (Text.sorted f.calledBy))]

namespace PlainGraph

def ofJson (j : Json) : PlainGraph :=
  let g := (j.itemsAt "functions").foldl (fun g f => g.addFunction (.ofItems f.items)) {}
  (j.itemsAt "calls").foldl (fun g c => g.addCall (c.item 0).text (c.item 1).text) g

def toJson (g : PlainGraph) : Json :=
  .obj [("functions", .ofEntries (g.functions.map fun (k, f) => (k, f.toJson))),
    ("files", .ofStrings (Text.sorted g.files)), ("function_count", .int g.functionCount),
    ("relationship_count", .int g.relationCount)]

end PlainGraph

def AnyGraph.toJson : AnyGraph → Json
  | .full g => g.toJson
  | .plain g => g.toJson

abbrev PlainGraphs := Dict PlainGraph

namespace PlainGraphs

def ofJson (j : Json) : PlainGraphs := j.fields.map fun (k, g) => (k, .ofJson g)

def find (s : PlainGraphs) (name : String) : Except Fault PlainGraph :=
  match Dict.get? s name with
  | some g => .ok g
  | none => .error (.missingKey name)

/-- Carries out a command on a graph: adds a function or a call, merges another graph or changes
nothing. The graph is shown afterwards, and with a call whether it was taken in. -/
def perform (s : PlainGraphs) (command : Json) : Except Fault (Json × PlainGraphs) := do
  let name := (command.item 1).text
  let g ← s.find name
  let answer := fun (result : Json) (g : PlainGraph) =>
    (Json.obj [("result", result), ("graph", g.toJson)], Dict.set s name g)
  match (command.item 0).text with
  | "function" => return answer .null (g.addFunction (.ofItems (command.items.drop 2)))
  | "call" =>
    let (a, b) := ((command.item 2).text, (command.item 3).text)
    return answer (.bool (g.takesCall a b)) (g.addCall a b)
  | "merge" => return answer .null (g.merge (← s.find (command.item 2).text))
  | "dump" => return answer .null g
  | c => throw (.unknownName c)

end PlainGraphs

end CodeAtlas

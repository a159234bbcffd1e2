import CodeAtlas.Embedding.Vectors

/-!
# Search for blocks

All definitions of the sources of a project, found by vectors.
-/

namespace CodeAtlas.Embedding

open Run CommandLine

structure BlockIndex where
  dir : String
  embedder : Embedder
  vectors : VectorIndex := {}

namespace BlockIndex

def start (dir : String) (model : Json) : Run BlockIndex := do
  return { dir, embedder := ← loadModel model }

def build (x : BlockIndex) : Run BlockIndex := do
  let found ← (← sourceFiles x.dir).mapM fun file => do
    let blocks ← blocksOf file
    for b in blocks do
      x.embedder.embed (.str b.code)
    return blocks.map Source.Block.toJson
  return { x with vectors := ← x.vectors.build found.flatten }

def search (x : BlockIndex) (query limit : Json) : Run (List (Json × Float)) := do
  x.embedder.embed query
  if x.vectors.isBuilt then x.vectors.nearest limit
  else throw (.lacks .null "search")

def sayHits (hits : List (Json × Float)) : Run Unit := do
  for (block, distance) in hits do
    say ((block.field "file").shown ++ ":" ++ (block.field "start_line").shown ++ "-" ++
      (block.field "end_line").shown ++ " | " ++ (block.field "name").shown ++ " | Score: " ++
      (Json.float distance).shown)
    say (block.field "code").shown
    say (String.ofList (List.replicate 40 '-'))

end BlockIndex

def blockGrammar : CommandLine.Grammar :=
  .mk [{ key := "command", choices := ["index", "search"], required := true },
    needed "project_dir" ["--project-dir"], { key := "query", names := ["--query"] }] "" []

def blockMain (words : List String) : Run Unit := do
  let args ← commandLine blockGrammar words
  let x ← BlockIndex.start (textOf args "project_dir") defaultModel
  if textOf args "command" == "index" then
    let _ ← x.build
    say "Index built."
  else
    match text? args "query" with
    | none | some "" => say "Please provide --query for search."
    | some query => BlockIndex.sayHits (← (← x.build).search (.str query) (.int 5))

end CodeAtlas.Embedding

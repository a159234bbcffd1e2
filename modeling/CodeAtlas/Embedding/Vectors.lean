import CodeAtlas.Positions
import CodeAtlas.Source.Block
import CodeAtlas.Files

/-!
# Search by vectors

A text is embedded as a vector by a language model. A vector index holds the vectors of some
entries and finds those nearest to the vector of a query.
-/

namespace CodeAtlas.Embedding

open Run

inductive Embedder where
  | model
  | service
deriving Repr, DecidableEq

def defaultModel : Json := .str "microsoft/codebert-base"

def loadModel (name : Json) : Run Embedder := do
  call "tokenizer" [name]
  call "model" [name]
  return .model

def Embedder.embed (e : Embedder) (text : Json) : Run Unit :=
  match e with
  | .model => call "tokenize"
    [text,
     .obj [("max_length", .int 256), ("return_tensors", .str "pt"), ("truncation", .bool true)]]
  | .service => call "embed" [text]

/-- The entries whose vectors are held. Entries stay when the vectors are taken in anew. -/
structure VectorIndex where
  entries : List Json := []
  isBuilt : Bool := false

namespace VectorIndex

def build (x : VectorIndex) (entries : List Json) : Run VectorIndex := do
  if entries.isEmpty then return x
  call "IndexFlatL2" [.int 2]
  for _ in entries do
    call "add" [.int 1, .int 2]
  return { entries := x.entries ++ entries, isBuilt := true }

def limited {α : Type} (limit : Json) (l : List α) : Except Fault (List α) :=
  match limit with
  | .null => .ok l
  | .int n => .ok (Positions.upTo l n)
  | .bool b => .ok (Positions.upTo l (if b then 1 else 0))
  | _ => .error (.wrongShape "slice indices must be integers or None or have an __index__ method")

def nearest (x : VectorIndex) (limit : Json) : Run (List (Json × Float)) := do
  let hits ← lift (limited limit (← get).hits)
  hits.mapM fun (distance, place) => do
    return (← lift (Positions.nth x.entries place), distance)

end VectorIndex

def sourceFiles (dir : String) : Run (List String) := do
  return Files.scan (← tree) dir [".py"]

def blocksOf (file : String) : Run (List Source.Block) := do
  lift (Source.blocks file (← lift ((← tree).readText file)))

end CodeAtlas.Embedding

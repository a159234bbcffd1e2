import CodeAtlas.Embedding.Vectors

/-!
# Catalogues

A catalogue embeds all definitions of a project and writes a record of each to the node store.
What was embedded before a failure stays in the catalogue.

The store is a database that holds nodes, relations and vectors. Nodes and relations are written
by queries that spell out their properties.
-/

namespace CodeAtlas.Embedding

open Run

namespace NodeStore

def connectTo (host door : Json) : Run Unit := call "HelixDB" [host, door]

def nodeQuery (label properties : Json) : String :=
  "ADD " ++ label.shown ++ "(" ++ properties.shown ++ ")"

/-- The query that adds a relation. Absent properties are written as an empty table. -/
def relationQuery (source target kind properties : Json) : String :=
  "ADD_REL " ++ source.shown ++ " -[" ++ kind.shown ++ "]-> " ++ target.shown ++ " " ++
    (if properties.truthy then properties else .obj []).shown

/-- Sends a query with further arguments; the answer counts the requests so far. -/
def send (text : Json) (further : List Json) : Run Json := do
  call "query" (text :: further)
  return .obj [("n", .int (← get).requests.length)]

def addNode (label properties : Json) : Run Json := send (.str (nodeQuery label properties)) []

def addRelation (source target kind properties : Json) : Run Json :=
  send (.str (relationQuery source target kind properties)) []

/-- Sends a query with parameters; absent ones are an empty table. -/
def ask (text params : Json) : Run Json := send text [if params.truthy then params else .obj []]

end NodeStore

structure Catalogue where
  dir : String
  takesRecords : Bool
  embedder : Embedder
  entries : List Json := []

def catalogueEntry (b : Source.Block) : Json :=
  .obj [("file", .str b.file), ("name", .str b.name), ("type", .str b.kind.name),
    ("start_line", .int b.startLine), ("end_line", .int b.endLine)]

def storeRecord (b : Source.Block) : Json :=
  .obj [("name", .str b.name), ("signature", .str ""), ("file_path", .str b.file),
    ("line_number", .int b.startLine), ("end_line", .int b.endLine), ("namespace", .str ""),
    ("is_defined", .bool true), ("return_type", .str ""), ("description", .str ""),
    ("is_virtual", .bool false), ("is_template", .bool false), ("calls", .arr [])]

namespace Catalogue

def start (dir : String) (takesRecords : Bool) (model : Json) : Run Catalogue := do
  return { dir, takesRecords, embedder := ← loadModel model }

def store (c : Catalogue) (records : List Json) (project : Json) : Run Unit :=
  if c.takesRecords then call "add_functions_manually" [.arr records, project]
  else throw (.missingPart "add_functions_manually")

/-- Embeds the blocks of files; a file that cannot be read ends the work. -/
def embedFiles (c : Catalogue) (records : List Json) :
    List String → Run (Except Fault (List Json) × Catalogue)
  | [] => return (.ok records, c)
  | file :: rest => do
    match ← attempt (blocksOf file) with
    | .error e => return (.error e, c)
    | .ok blocks =>
      for b in blocks do
        c.embedder.embed (.str b.code)
      { c with entries := c.entries ++ blocks.map catalogueEntry }.embedFiles
        (records ++ blocks.map storeRecord) rest

def build (c : Catalogue) (project : Json) : Run (Except Fault Unit × Catalogue) := do
  match ← c.embedFiles [] (← sourceFiles c.dir) with
  | (.error e, c) => return (.error e, c)
  | (.ok records, c) => return (← attempt (c.store records project), c)

def compiledEndings : List String := [".c", ".cpp", ".cxx", ".cc", ".h", ".hpp", ".hxx", ".hh"]

/-- Takes in the compiled sources of the project. There is no analyser for them, so only a project
without such files succeeds. -/
def buildCompiled (c : Catalogue) (project : Json) (store : Bool) (endings : List String) :
    Run Unit := do
  if !store then NodeStore.connectTo (.str "localhost") (.int 6969)
  if (Files.scan (← tree) c.dir endings).isEmpty then c.store [] project
  else throw (.unknownName "analyser")

end Catalogue

end CodeAtlas.Embedding

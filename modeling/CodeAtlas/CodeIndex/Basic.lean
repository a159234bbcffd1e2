import CodeAtlas.Embedding.Vectors

/-!
# Code indexes

The functions of a project by name, the links between them, and a search by vectors. Of functions
with the same name the last one is kept.

The links say who calls whom, by name, with repetitions. Each call is written at both of its ends.
-/

namespace CodeAtlas

structure CallLinks where
  callers : List String := []
  callees : List String := []
deriving Repr, DecidableEq, Inhabited

abbrev LinkTable := Dict CallLinks

namespace LinkTable

def links (t : LinkTable) (name : String) : CallLinks := (Dict.get? t name).getD {}

def addCallees (t : LinkTable) (name : String) (callees : List String) : LinkTable :=
  let l := t.links name
  Dict.set t name { l with callees := l.callees ++ callees }

def addCaller (t : LinkTable) (caller callee : String) : LinkTable :=
  let l := t.links callee
  Dict.set t callee { l with callers := l.callers ++ [caller] }

def addCalls (t : LinkTable) (name : String) (callees : List String) : LinkTable :=
  callees.foldl (fun t c => t.addCaller name c) (t.addCallees name callees)

def ofCalls (calls : List (String × List String)) (known : LinkTable := []) : LinkTable :=
  calls.foldl (fun t (name, callees) => t.addCalls name callees) known

end LinkTable

open Run

structure CodeIndex where
  embedder : Embedding.Embedder
  functions : Dict Json := []
  links : LinkTable := []
  vectors : Embedding.VectorIndex := {}

namespace CodeIndex

def blockRecord (b : Source.Block) : Json :=
  .obj [("file", .str b.file), ("start_line", .int b.startLine), ("end_line", .int b.endLine),
    ("signature", .ofString? b.signature?), ("code", .str b.code)]

def functionsOf (blocks : List Source.Block) (known : Dict Json) : Dict Json :=
  (blocks.filter (·.isFunction)).foldl (fun d b => Dict.set d b.name (blockRecord b)) known

def linksOf (blocks : List Source.Block) (known : LinkTable := []) : LinkTable :=
  LinkTable.ofCalls ((blocks.filter (·.isFunction)).map fun b => (b.name, b.calledNames)) known

def knownFields : Json → Except Fault (Dict Json)
  | .obj fields => .ok fields
  | j => .error (.wrongShape ("'" ++ j.kindName ++ "' object is not a mapping"))

def embedFunctions (x : CodeIndex) : Run CodeIndex := do
  let entries ← x.functions.mapM fun (name, record) => do
    let code ← lift (record.entry "code")
    x.embedder.embed code
    return Json.obj (Dict.set (← lift (knownFields record)) "function" (.str name))
  return { x with vectors := ← x.vectors.build entries }

def start : Run CodeIndex := return { embedder := ← Embedding.loadModel Embedding.defaultModel }

def build (x : CodeIndex) (dir : String) : Run CodeIndex := do
  let blocks := (← (← Embedding.sourceFiles dir).mapM Embedding.blocksOf).flatten
  { x with
    functions := functionsOf blocks x.functions, links := linksOf blocks x.links }.embedFunctions

def linked (functions : Dict Json) (name : String) : Except Fault Json := do
  let known ← knownFields ((Dict.get? functions name).getD (.obj []))
  return .obj (known.foldl (fun d (k, v) => Dict.set d k v) [("function", .str name)])

def linksJson (l : CallLinks) : Json :=
  .obj [("callers", .ofStrings l.callers), ("callees", .ofStrings l.callees)]

def linksOfJson (j : Json) : CallLinks := ⟨j.textsAt "callers", j.textsAt "callees"⟩

def callChain (functions : Dict Json) (links : LinkTable) (name : String) : Except Fault Json := do
  let known := (Dict.get? functions name).getD .null
  if !known.truthy then return .obj []
  let ends := links.links name
  let callers ← ends.callers.mapM (linked functions)
  let callees ← ends.callees.mapM (linked functions)
  let fields ← ["file", "start_line", "end_line", "signature"].mapM fun key => do
    return (key, ← known.entry key)
  return .obj ([("function", .str name)] ++ fields ++
    [("callers", .arr callers), ("callees", .arr callees)])

def search (x : CodeIndex) (query limit : Json) : Run (List Json) := do
  if !x.vectors.isBuilt then return []
  x.embedder.embed query
  (← x.vectors.nearest limit).mapM fun (entry, distance) => lift do
    let fields ← ["file", "start_line", "end_line", "code"].mapM fun key => do
      return (key, ← entry.entry key)
    return .obj (fields ++ [("score", .float distance), ("function", ← entry.entry "function")])

end CodeIndex

end CodeAtlas

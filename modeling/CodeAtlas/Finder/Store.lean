import CodeAtlas.Finder.Search

/-!
# Functions in a graph database

Writes all functions of a code base and the calls between them to a graph database, and asks the
database for callers, called functions and longer chains.
-/

namespace CodeAtlas.Finder

open Run Text

def openGraph : Run Unit := do
  if !(← get).graphLibrary then throw (.notInstalled "请先安装py2neo: pip install py2neo")
  connect

def batchSize : Nat := 100

def identified (h : HeadPattern) (path content : String) (m : Match) :
    Except Fault (String × Definition) := do
  let name ← headName h m
  let line := lineAt content m.start
  let text := m.whole
  let body ←
    if occursIn "\x7b" text || occursIn ":" text then
      bodyAt content (split content "\n") m.start
    else pure ""
  return (name ++ "_" ++ path ++ "_" ++ toString line, { name, file := path, line, body })

def beforeFailure {α : Type} : List (Except Fault α) → List α
  | .ok a :: rest => a :: beforeFailure rest
  | _ => []

def identifiedIn (path content : String) : List (String × Definition) :=
  beforeFailure <| declarationHeads.flatMap fun h =>
    (h.pattern.findAll content).map (identified h path content)

def identifiedAll (texts : List (String × String)) : Dict Definition :=
  Dict.ofPairs (texts.flatMap fun (path, content) => identifiedIn path content)

def note (step : TransactionStep) : Run Unit :=
  modify fun w => { w with transactions := step :: w.transactions }

def beginTransaction : Run Nat := do
  let number := (← get).transactions.length
  note (.begun number)
  return number

def make (transaction : Nat) (r : Request) : Run Unit := do
  request r
  note (.made transaction r)

def commit (transaction : Nat) : Run Unit := do
  call "commit" []
  note (.committed transaction)

structure Batch where
  transaction : Nat
  /-- The number of changes written, those of earlier transactions included. -/
  count : Nat := 0

def Batch.start : Run Batch := do return { transaction := ← beginTransaction }

def Batch.write (report : Nat → String) (b : Batch) (r : Request) : Run Batch := do
  make b.transaction r
  let count := b.count + 1
  if count % batchSize == 0 then
    commit b.transaction
    let next ← beginTransaction
    say (report count)
    return ⟨next, count⟩
  else return ⟨b.transaction, count⟩

def nodeOf (id : String) (d : Definition) : Request :=
  .node "Function" [("id", .str id), ("name", .str d.name), ("file_path", .str d.file),
    ("line_number", .int d.line)]

def nodesWritten (total count : Nat) : String :=
  "  已处理 " ++ toString count ++ "/" ++ toString total ++ " 个函数节点"

def writeNodes (all : Dict Definition) : Run Unit := do
  let b ← all.foldlM (fun b (id, d) => b.write (nodesWritten all.length) (nodeOf id d))
    (← Batch.start)
  commit b.transaction

/-- Words that are no calls, and functions that are not followed. -/
def skippedNames : List String := ["if", "for", "while", "switch"] ++ builtins

def calledIds (all : Dict Definition) (body : String) : List String :=
  ((calledNames body).filter (!skippedNames.contains ·)).flatMap fun name =>
    (all.filter (·.2.name == name)).map (·.1)

def callRelation (caller callee : String) : Request :=
  .relation "CALLS" (.str caller) (.str callee)

def callsWritten (count : Nat) : String := "  已创建 " ++ toString count ++ " 个调用关系"

def functionsSearched (total count : Nat) : String :=
  "  已分析 " ++ toString count ++ "/" ++ toString total ++ " 个函数的调用关系"

def writeCallsFrom (all : Dict Definition) (id : String) (body : String) (b : Batch) : Run Batch :=
  (calledIds all body).foldlM (fun b target => b.write callsWritten (callRelation id target)) b

/-- Searches a function that has a text and writes its calls; `done` functions were searched
before. -/
def searchFunction (all : Dict Definition) : Nat × Batch → String × Definition → Run (Nat × Batch)
  | (done, b), (id, d) => do
    if d.body.isEmpty then return (done, b)
    let b ← writeCallsFrom all id d.body b
    if (done + 1) % batchSize == 0 then say (functionsSearched all.length (done + 1))
    return (done + 1, b)

def writeCalls (all : Dict Definition) : Run Nat := do
  let (_, b) ← all.foldlM (searchFunction all) (0, ← Batch.start)
  commit b.transaction
  return b.count

def nodesPlanned (total : Nat) : String :=
  "第二步: 在图数据库中创建 " ++ toString total ++ " 个函数节点..."

def callsDone (total : Nat) : String := "完成! 总共创建了 " ++ toString total ++ " 个函数调用关系"

def clearGraph (clear : Bool) : Run Unit := do
  if clear then let _ ← query? "MATCH (n) DETACH DELETE n" []

def fillGraph (dir : String) (endings : List String) : Run Unit := do
  say "第一步: 提取所有函数定义..."
  let all := identifiedAll (sourceTexts (← tree) dir endings)
  say (nodesPlanned all.length)
  writeNodes all
  say "第三步: 分析函数调用关系..."
  let relations ← writeCalls all
  say (callsDone relations)

def createIndexes : Run Unit := do
  let _ ← query? "CREATE INDEX ON :Function(name)" []
  let _ ← query? "CREATE INDEX ON :Function(id)" []

def buildGraph (dir : String) (endings : List String) (clear : Bool) : Run Unit := do
  if !(← get).graphLibrary then throw (.notInstalled "请先安装py2neo库: pip install py2neo")
  openGraph
  clearGraph clear
  fillGraph dir endings
  say "创建索引..."
  createIndexes

def askAbout (function text : String) : Run (List Row) := do
  return (← query? text [("function_name", .str function)]).getD []

def placedColumns (node : String) : String :=
  node ++ ".file_path as file_path, " ++ node ++ ".line_number as line_number"

def storedNeighbours (function : String) : Run Json := do
  let callers ← askAbout function <| block 8
    ["MATCH (caller:Function)-[:CALLS]->(callee:Function \x7bname: $function_name\x7d)",
     "RETURN caller.name as caller_name, " ++ placedColumns "caller",
     "LIMIT 100"]
  let callees ← askAbout function <| block 8
    ["MATCH (caller:Function \x7bname: $function_name\x7d)-[:CALLS]->(callee:Function)",
     "RETURN callee.name as callee_name, " ++ placedColumns "callee",
     "LIMIT 100"]
  return .obj [("callers", .arr (callers.map .obj)), ("callees", .arr (callees.map .obj))]

def storedChains (functions : List String) : Run (Dict Json) :=
  functions.foldlM (fun chains f => do return Dict.set chains f (← storedNeighbours f)) []

def storedFunction (function : String) : Run Json := do
  let inward ← askAbout function <| block 4
    ["MATCH (caller:Function)-[:CALLS]->(callee:Function \x7bname: $function_name\x7d)",
     "RETURN caller.name as name, " ++ placedColumns "caller" ++ ", caller.id as id",
     "ORDER BY caller.name"]
  let outward ← askAbout function <| block 4
    ["MATCH (caller:Function \x7bname: $function_name\x7d)-[:CALLS]->(callee:Function)",
     "RETURN callee.name as name, " ++ placedColumns "callee" ++ ", callee.id as id",
     "ORDER BY callee.name"]
  let self ← askAbout function <| block 4
    ["MATCH (func:Function \x7bname: $function_name\x7d)",
     "RETURN func.name as name, " ++ placedColumns "func" ++ ", func.id as id",
     "LIMIT 1"]
  return .obj
    [("function", .obj (self.headD [("name", .str function), ("not_found", .bool true)])),
     ("upstream", .arr (inward.map .obj)), ("downstream", .arr (outward.map .obj))]

/-- The paths to and from a function, and all functions on them. -/
structure StoredPaths where
  inward : List Row
  outward : List Row
  related : List Row

def storedPaths (depth : Int) (function : String) : Run StoredPaths := do
  let inward ← askAbout function <| block 8
    ["MATCH path = (caller:Function)-[:CALLS*1.." ++ toString depth ++
       "]->(callee:Function \x7bname: $function_name\x7d)",
     "RETURN path, length(path) as depth",
     "ORDER BY depth DESC",
     "LIMIT 10"]
  let outward ← askAbout function <| block 8
    ["MATCH path = (caller:Function \x7bname: $function_name\x7d)-[:CALLS*1.." ++ toString depth ++
       "]->(callee:Function)",
     "RETURN path, length(path) as depth",
     "ORDER BY depth DESC",
     "LIMIT 10"]
  let related ← askAbout function <| block 8
    ["MATCH (start:Function)-[:CALLS*0.." ++ toString depth ++ "]-(related:Function)",
     "WHERE start.name = $function_name",
     "RETURN DISTINCT related.name as name, related.file_path as file_path, ",
     "       related.line_number as line_number, related.id as id"]
  return ⟨inward, outward, related⟩

def storedPathsOf (functions : List String) (depth : Int) : Run (Dict StoredPaths) :=
  functions.foldlM (fun chains f => do return Dict.set chains f (← storedPaths depth f)) []

def StoredPaths.toJson (p : StoredPaths) : Json :=
  .obj [("upstream_paths", .arr (p.inward.map .obj)),
    ("downstream_paths", .arr (p.outward.map .obj)),
    ("all_related_functions", .arr (p.related.map .obj))]

/-- The text of a stored function, read from its file; empty if that fails. -/
def storedBody (t : FileTree) (file line : Json) : String :=
  match file, line with
  | .str path, .int n =>
    match (t.readTextLoosely path).bind fun content => bodyAtLine (split content "\n") (n - 1) with
    | .ok body => body
    | .error _ => ""
  | _, _ => ""

/-- The texts of stored functions by identifier; functions without one are left out. -/
def storedBodies (ids : List Json) : Run (List (Json × String)) :=
  ids.foldlM (fun out id => do
    let text := block 8
      ["MATCH (func:Function \x7bid: $func_id\x7d)",
       "RETURN func.name as name, " ++ placedColumns "func"]
    let rows ← query? text [("func_id", id)]
    match rows.getD [] with
    | [] => return out
    | row :: _ =>
      let body := storedBody (← tree) (← Row.column row "file_path")
        (← Row.column row "line_number")
      if body.isEmpty then return out
      return out.filter (fun (other, _) => other != id) ++ [(id, body)]) []

end CodeAtlas.Finder

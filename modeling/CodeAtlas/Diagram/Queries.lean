import CodeAtlas.Diagram.Relations

/-!
# What the overviews ask for

The queries behind the overview diagrams of one project. A failing query is logged and counts as
empty.
-/

namespace CodeAtlas.Diagram

open Run Text

/-- The rows of a query; a failure is logged and counts as no rows. -/
def rowsOr (complaint text : String) : Run (Option (List Row)) :=
  orElse (query? text []) fun e => do
    err (complaint ++ ": " ++ e.message)
    return some []

def familyFunctions (family complaint text : String) : Run (List Row) := do
  info ("Finding " ++ family)
  match ← attempt (query? text []) with
  | .error e =>
    err ("Error getting " ++ complaint ++ ": " ++ e.message)
    return []
  | .ok none | .ok (some []) =>
    warn ("No " ++ family ++ " found")
    return []
  | .ok (some rows) =>
    info ("Found " ++ toString rows.length ++ " " ++ family)
    return rows

def familyQuery (condition : String) (more : List String) : String :=
  block 4 (["MATCH (f:Function)", "WHERE f.project = 'folly' ", condition,
      "AND NOT f.file_path CONTAINS \"test\"", "AND NOT f.file_path CONTAINS \"Test\""] ++ more ++
    ["RETURN f.name as name, f.file_path as file_path, f.line_number as line_number",
     "ORDER BY f.file_path, f.line_number"])

def loggerFunctions : Run (List Row) :=
  familyFunctions "Logger-related functions" "Logger functions" <| familyQuery
    "AND (f.name CONTAINS \"Logger\" OR f.file_path CONTAINS \"logging\")"
    ["AND NOT f.file_path CONTAINS \"Benchmark\""]

def hashFunctions : Run (List Row) :=
  familyFunctions "Hash64-related functions" "Hash64 functions" <|
    familyQuery "AND (f.name CONTAINS \"Hash64\" OR f.name CONTAINS \"hash64\")" []

def startFunctions : Run (List Row) :=
  familyFunctions "InitImpl-related functions" "InitImpl functions" <|
    familyQuery "AND (f.name CONTAINS \"InitImpl\" OR f.name CONTAINS \"initImpl\")" []

def withoutTests : String :=
  block 4
    ["AND NOT f.file_path CONTAINS \"test/\"",
     "AND NOT f.file_path CONTAINS \"/test\"",
     "AND NOT f.file_path CONTAINS \"Test\"",
     "AND NOT f.file_path CONTAINS \"Benchmark\""]

def mainFunctions (includeTests : Bool) : Run (List Row) :=
  familyFunctions "main functions" "main functions" <| block 4
    ["MATCH (f:Function)",
     "WHERE f.project = 'folly' ",
     "AND (f.name = 'main' OR f.name ENDS WITH '::main')",
     if includeTests then "" else withoutTests,
     "RETURN f.name as name, f.file_path as file_path, f.line_number as line_number",
     "ORDER BY f.file_path"]

def loggerStarts : List String :=
  ["LoggerDB::getCategory", "LoggerDB::getCategoryOrNull", "LoggerDB::addContextCallback",
   "LoggerDB::internalWarningImpl", "Logger::getCategory", "initLogging", "initLoggingOrDie",
   "logDisabled", "logEnabled"]

def loggerCalls (depth limit : Int) : Run (Option (List Row)) := do
  let conditions := join " OR " <| loggerStarts.map fun n =>
    "caller.name = '" ++ n ++ "' OR callee.name = '" ++ n ++ "'"
  info "Getting call graph for Logger-related functions"
  rowsOr "Error getting logger call graph" <| block 4
    ["MATCH path = (caller:Function)-[r:CALLS*1.." ++ toString depth ++ "]->(callee:Function)",
     "WHERE caller.project = 'folly' AND callee.project = 'folly'",
     "AND (" ++ conditions ++ ")",
     "RETURN DISTINCT caller.name as caller, callee.name as callee,",
     "       caller.file_path as caller_path, callee.file_path as callee_path,",
     "       length(path) as path_length",
     "LIMIT " ++ toString limit]

def pathColumns (caller : String) : List String :=
  ["RETURN " ++ caller ++ ".name as caller, callee.name as callee,",
   "       " ++ caller ++ ".namespace as caller_namespace, callee.namespace as callee_namespace,",
   "       length(path) as path_length"]

def callsFrom (function : Row) (depth limit : Int) (focus : Option String) :
    Run (Option (List Row)) := do
  let name := field function "name" (.str "")
  if !name.truthy then
    warn "No function name provided"
    return some []
  let q : RelationQuery := { project := "folly", focus }
  info ("Querying call graph for function: " ++ name.shown)
  rowsOr "Error querying call graph" <| block 4 <|
    ["MATCH path = (caller:Function)-[r:CALLS*1.." ++ toString depth ++ "]->(callee:Function)",
     "WHERE caller.name = '" ++ name.shown ++ "' ",
     "AND caller.project = 'folly'",
     "AND callee.project = 'folly'",
     "AND caller.file_path = '" ++ (field function "file_path" (.str "")).shown ++ "'",
     q.focusClause "caller" "callee"] ++ pathColumns "caller" ++
    ["ORDER BY path_length", "LIMIT " ++ toString limit]

def callsFromMain (function : Row) (depth limit : Int) : Run (Option (List Row)) := do
  let name := field function "name" (.str "")
  if !name.truthy then
    warn "No main function name provided"
    return some []
  info ("Querying call graph for main function: " ++ name.shown)
  rowsOr "Error querying call graph" <| block 4 <|
    ["MATCH path = (main:Function)-[r:CALLS*1.." ++ toString depth ++ "]->(callee:Function)",
     "WHERE main.name = '" ++ name.shown ++ "' AND main.project = 'folly'",
     "AND callee.project = 'folly'",
     "AND main.file_path = '" ++ (field function "file_path" (.str "")).shown ++ "'"] ++
    pathColumns "main" ++ ["ORDER BY path_length", "LIMIT " ++ toString limit]

def componentFunctions (component : String) (limit : Int) : Run (Option (List Row)) := do
  info ("Finding functions related to component: " ++ component)
  rowsOr "Error finding component functions" <| block 4
    ["MATCH (f:Function)",
     "WHERE f.project = 'folly' ",
     "AND (f.name CONTAINS '" ++ component ++ "' OR f.namespace CONTAINS '" ++ component ++ "')",
     "RETURN f.name as name, f.file_path as file_path, f.line_number as line_number",
     "LIMIT " ++ toString limit]

def componentCalls (component : String) (depth limit : Int) : Run (Option (List Row)) := do
  let touches := fun side =>
    side ++ ".name CONTAINS '" ++ component ++ "' OR " ++ side ++ ".namespace CONTAINS '" ++
      component ++ "'"
  info ("Getting call graph for component: " ++ component)
  rowsOr "Error getting component call graph" <| block 4 <|
    ["MATCH path = (caller:Function)-[r:CALLS*1.." ++ toString depth ++ "]->(callee:Function)",
     "WHERE caller.project = 'folly' AND callee.project = 'folly'",
     "AND (" ++ touches "caller",
     "     OR " ++ touches "callee" ++ ")"] ++ pathColumns "caller" ++ ["LIMIT " ++ toString limit]

def focusCalls (focus : String) (limit : Int) : Run (Option (List Row)) := do
  info ("Finding relationships for functions containing '" ++ focus ++ "'")
  rowsOr "Error finding focus relationships" <| block 4
    ["MATCH (caller:Function)-[r:CALLS]->(callee:Function)",
     "WHERE caller.project = 'folly' AND callee.project = 'folly'",
     "AND (caller.name CONTAINS '" ++ focus ++ "' OR callee.name CONTAINS '" ++ focus ++ "')",
     "RETURN caller.name as caller, callee.name as callee, ",
     "       caller.namespace as caller_namespace, callee.namespace as callee_namespace,",
     "       type(r) as relationship_type",
     "LIMIT " ++ toString limit]

def scopesQuery : String :=
  block 4
    ["MATCH (f:Function)",
     "WHERE f.project = 'folly'",
     "RETURN DISTINCT f.namespace as namespace, count(f) as func_count",
     "ORDER BY func_count DESC",
     "LIMIT 20"]

def componentOf? (row : Row) : Except Fault (Option String) := do
  let scope := field row "namespace" (.str "")
  if scope.truthy then
    let last := (split (← scope.textFor "split") "::").getLastD ""
    return if last.isEmpty then none else some last
  else return none

def keyComponents (connected : Bool) : Run (List String) :=
  orElse (do
    match ← queryOn connected scopesQuery with
    | some rows => return sortedSet ((← rows.mapM fun r => lift (componentOf? r)).filterMap id)
    | none => throw (.notIterable .null)) fun e => do
      err ("Error finding key components: " ++ e.message)
      return []

end CodeAtlas.Diagram

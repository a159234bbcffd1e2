import CodeAtlas.Survey.MainFunctions

/-!
# Survey of entry points

Main functions, functions in examples and functions with many calls.
-/

namespace CodeAtlas.Survey

open Run

def exampleQuery : String :=
  Text.block 8
    ["MATCH (f:Function)",
     "WHERE f.project = 'folly' AND f.file_path CONTAINS '/examples/'",
     placeColumns,
     "ORDER BY f.file_path, f.line_number"]

def busyQuery : String :=
  Text.block 8
    ["MATCH (caller:Function)-[r:CALLS]->(callee:Function)",
     "WHERE caller.project = 'folly' AND callee.project = 'folly'",
     "AND NOT caller.file_path CONTAINS '/test/'",
     "AND NOT caller.file_path CONTAINS 'Test'",
     "WITH caller, count(r) as call_count",
     "WHERE call_count > 5",
     "RETURN caller.name as name, caller.file_path as file_path, ",
     "       caller.line_number as line_number, call_count",
     "ORDER BY call_count DESC",
     "LIMIT 20"]

def entryFileQuery : String :=
  Text.block 8
    ["MATCH (f:Function)",
     "WHERE f.project = 'folly' ",
     "AND (f.file_path CONTAINS '/example' OR ",
     "     f.file_path CONTAINS '/benchmark' OR ",
     "     f.file_path CONTAINS '/demo' OR",
     "     f.file_path CONTAINS '/tool')",
     "AND NOT f.file_path CONTAINS '/test/'",
     "RETURN DISTINCT f.file_path as file_path, count(*) as function_count",
     "ORDER BY function_count DESC",
     "LIMIT 20"]

def fileQuery (path : String) : String :=
  Text.block 16
    ["MATCH (f:Function)",
     "WHERE f.project = 'folly' AND f.file_path = '" ++ path ++ "'",
     "RETURN f.name as name, f.line_number as line_number",
     "ORDER BY f.line_number"]

def logEntryFiles : Option (List Row) → Run Unit
  | some (r :: rest) => do
    info ("Found " ++ toString (r :: rest).length ++ " files likely to contain entry points:")
    forNumbered (r :: rest) fun number r => do
      info ("  " ++ number ++ fileWithCount r)
      let functions ← query? (fileQuery (known r "file_path")) []
      forNumbered (functions.getD []) fun number f =>
        info ("    " ++ number ++ known f "name" ++ ":" ++ count f "line_number")
  | _ => info "No potential entry point files found"

def firstOfFiles (rows : List Row) : List Row :=
  (rows.foldl (fun (found, files) r =>
    let file := (Dict.get? r "file_path").getD (.str "")
    if file.truthy && !files.contains file then (found ++ [r], files ++ [file]) else (found, files))
    (([] : List Row), ([] : List Json))).1

def entryPoints : Run Json :=
  survey (.arr []) do
    info "Searching for main functions in the folly project..."
    let mains ← query? mainQuery []
    logRows mains "main functions" "No functions named 'main' found" place
    info "Searching for functions in example directories..."
    let examples ← query? exampleQuery []
    logRows examples
      "functions in example directories" "No functions found in example directories" place
    info "Finding core functions with many outgoing calls..."
    let busy ← query? busyQuery []
    logRows busy "core functions with many outgoing calls"
      "No core functions found with many outgoing calls" placeWithCalls
    info "Finding files likely to contain entry points..."
    logEntryFiles (← query? entryFileQuery [])
    let all := (← walked mains) ++ firstOfFiles (← walked examples) ++ (← walked busy)
    info ("Total entry points identified: " ++ toString all.length)
    return rowsJson (some all)

end CodeAtlas.Survey

import CodeAtlas.Survey.MainFunctions

/-!
# Survey of core functions

Functions, components, entry points and start functions outside of tests.
-/

namespace CodeAtlas.Survey

open Run Text

def outsideTests (node gap : String) : List String :=
  let condition := fun part => "AND NOT " ++ node ++ ".file_path CONTAINS '" ++ part ++ "'"
  [condition "/test/" ++ gap, condition "\\test\\" ++ gap, condition "Test" ++ gap,
   condition "Benchmark"]

def coreQuery : String :=
  block 8
    (["MATCH (f:Function)", "WHERE f.project = 'folly' "] ++ outsideTests "f" " " ++
      [placeColumns, "ORDER BY f.file_path, f.line_number", "LIMIT 100"])

def componentQuery : String :=
  block 8
    (["MATCH (f:Function)", "WHERE f.project = 'folly'"] ++ outsideTests "f" " " ++
      ["RETURN DISTINCT split(f.name, '::')[0] as component, count(*) as count",
       "ORDER BY count DESC", "LIMIT 20"])

def sampleQuery (component : String) : String :=
  block 16
    (["MATCH (f:Function)", "WHERE f.project = 'folly'",
      "AND f.name STARTS WITH '" ++ component ++ "::'"] ++ outsideTests "f" " " ++
      ["RETURN f.name as name, f.file_path as file_path", "LIMIT 5"])

def callingQuery : String :=
  block 8
    (["MATCH (caller:Function)-[r:CALLS]->(callee:Function)",
      "WHERE caller.project = 'folly' AND callee.project = 'folly'"] ++ outsideTests "caller" "" ++
      ["WITH caller, count(r) as call_count",
       "WHERE call_count > 3",
       "RETURN caller.name as name, caller.file_path as file_path, ",
       "       caller.line_number as line_number, call_count",
       "ORDER BY call_count DESC",
       "LIMIT 20"])

def startQuery : String :=
  block 8
    (["MATCH (f:Function)", "WHERE f.project = 'folly'"] ++ outsideTests "f" " " ++
      ["AND (f.name CONTAINS 'init' OR ",
       "     f.name CONTAINS 'Init' OR ",
       "     f.name CONTAINS 'start' OR ",
       "     f.name CONTAINS 'Start' OR",
       "     f.name CONTAINS 'create' OR",
       "     f.name CONTAINS 'Create')",
       placeColumns,
       "LIMIT 20"])

def logComponents : Option (List Row) → Run Unit
  | some (r :: rest) => do
    info ("Found " ++ toString (r :: rest).length ++ " important components:")
    forNumbered (r :: rest) fun number r => do
      info ("  " ++ number ++ known r "component" ++ " (" ++ count r "count" ++ " functions)")
      let samples ← query? (sampleQuery (known r "component")) []
      if !isNothing samples then
        info "    Sample functions:"
        forNumbered (samples.getD []) fun number f =>
          info ("      " ++ number ++ known f "name" ++ " in " ++ known f "file_path")
  | _ => info "No important components found"

def coreFunctions : Run Json :=
  survey (.arr []) do
    info "Searching for core Folly functions excluding test files..."
    let core ← query? coreQuery []
    logRows core "core functions" "No core functions found" place
    info "Identifying important Folly components..."
    logComponents (← query? componentQuery [])
    info "Finding functions with many outgoing calls (potential entry points)..."
    logRows (← query? callingQuery []) "potential entry points" "No potential entry points found"
      placeWithCalls
    info "Finding initialization functions..."
    logRows (← query? startQuery [])
      "initialization functions" "No initialization functions found" place
    return rowsJson core

end CodeAtlas.Survey

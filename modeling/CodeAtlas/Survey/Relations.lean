import CodeAtlas.Survey.Basic

/-!
# Survey of relations

The functions and calls around one name.
-/

namespace CodeAtlas.Survey

open Run

def focus : String := "BufferedRandomDevice"

def focusQuery : String :=
  Text.block 8
    ["MATCH (f:Function)",
     "WHERE f.project = 'folly' AND f.name CONTAINS '" ++ focus ++ "'",
     "RETURN f.name as name",
     "LIMIT 10"]

def focusCallQuery : String :=
  Text.block 8
    ["MATCH (caller:Function)-[r:CALLS]->(callee:Function)",
     "WHERE caller.project = 'folly' ",
     "AND callee.project = 'folly'",
     "AND (caller.name CONTAINS '" ++ focus ++ "' OR callee.name CONTAINS '" ++ focus ++ "')",
     "RETURN caller.name as caller, callee.name as callee",
     "LIMIT 50"]

def anyCallQuery : String :=
  Text.block 8
    ["MATCH (caller:Function)-[r:CALLS]->(callee:Function)",
     "WHERE caller.project = 'folly' AND callee.project = 'folly'",
     "RETURN caller.name as caller, callee.name as callee",
     "LIMIT 10"]

def relations : Run Json :=
  survey .null do
    info "Executing simple query to check function existence..."
    logRows (← query? focusQuery []) ("functions containing '" ++ focus ++ "'")
      ("No functions found containing '" ++ focus ++ "'") (known · "name")
    info "\nExecuting relationship query..."
    logRows (← query? focusCallQuery []) "call relationships" "No call relationships found" relation
    info "\nExecuting general relationship query..."
    logRows (← query? anyCallQuery []) "general call relationships"
      "No general call relationships found" relation
    return .null

end CodeAtlas.Survey

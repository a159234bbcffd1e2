import CodeAtlas.Survey.Basic

/-!
# Survey of main functions

Looks for main functions; if there are none, for functions and files with a similar name.
-/

namespace CodeAtlas.Survey

open Run

def placeColumns : String :=
  "RETURN f.name as name, f.file_path as file_path, f.line_number as line_number"

def functionQuery (indent : Nat) (condition : String) : String :=
  Text.block indent ["MATCH (f:Function)", "WHERE f.project = 'folly' AND " ++ condition,
    placeColumns]

def mainQuery : String := functionQuery 8 "f.name = 'main'"

def mainFileQuery : String :=
  Text.block 20
    ["MATCH (f:Function)",
     "WHERE f.project = 'folly' AND ",
     "      (f.file_path CONTAINS '/main' OR f.file_path CONTAINS '/example')",
     "RETURN DISTINCT f.file_path as file_path, count(*) as function_count",
     "ORDER BY function_count DESC",
     "LIMIT 20"]

def isNothing (rows : Option (List Row)) : Bool := (rows.getD []).isEmpty

def surveyMainFiles : Run Unit := do
  logRows (← query? mainFileQuery []) "files potentially containing main functions"
    "No relevant files found." fileWithCount

def surveyIntMains : Run Unit := do
  let found ← query? (functionQuery 16 "f.return_type = 'int' AND f.name = 'main'") []
  logRows found
    "main functions with int return type" "No main functions found in the database." place
  if isNothing found then surveyMainFiles

def surveyMainNames : Run Unit := do
  let found ← query? (functionQuery 12 "f.name CONTAINS 'main'") []
  logRows found "functions containing 'main'"
    "No functions with 'main' in name found, checking for int return type functions..." place
  if isNothing found then surveyIntMains

def mainFunctions : Run Json :=
  survey .null do
    info "Searching for main functions in the folly project..."
    let found ← query? mainQuery []
    logRows found
      "main functions" "No functions named 'main' found, trying alternative search..." place
    if isNothing found then surveyMainNames
    return rowsJson found

end CodeAtlas.Survey

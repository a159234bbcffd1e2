import CodeAtlas.Session

/-!
# Surveys of a project

A survey asks the database about a project and logs what it finds under numbers. A failure is
logged too and ends the survey.
-/

namespace CodeAtlas.Survey

open Run

def shownField (r : Row) (key : String) (default : Json) : String :=
  ((Dict.get? r key).getD default).shown

def known (r : Row) (key : String) : String := shownField r key (.str "unknown")

def count (r : Row) (key : String) : String := shownField r key (.int 0)

def place (r : Row) : String :=
  known r "name" ++ " in " ++ known r "file_path" ++ ":" ++ count r "line_number"

def placeWithCalls (r : Row) : String := place r ++ " (" ++ count r "call_count" ++ " calls)"

def fileWithCount (r : Row) : String :=
  known r "file_path" ++ " (" ++ count r "function_count" ++ " functions)"

def relation (r : Row) : String := known r "caller" ++ " -> " ++ known r "callee"

def forNumbered (rows : List Row) (each : String → Row → Run Unit) : Run Unit :=
  (rows.zip (List.range rows.length)).forM fun (r, n) => each (toString (n + 1) ++ ". ") r

def logRows (rows : Option (List Row)) (title none : String) (line : Row → String) : Run Unit :=
  match rows with
  | some (r :: rest) => do
    info ("Found " ++ toString (r :: rest).length ++ " " ++ title ++ ":")
    forNumbered (r :: rest) fun number r => info ("  " ++ number ++ line r)
  | _ => info none

def walked (rows : Option (List Row)) : Run (List Row) :=
  match rows with
  | some rows => return rows
  | none => throw (.notIterable .null)

def logFailure (e : Fault) : Run Unit := do
  err ("Error: " ++ e.message)
  err "<traceback>"

def connectLogging (uri : String) : Run Bool := do
  info ("Connecting to Neo4j at " ++ uri)
  connect
  if !(← get).database.connected then
    err "Failed to connect to Neo4j. Please check connection settings."
    return false
  else
    info "Successfully connected to Neo4j"
    return true

def databaseAddress : String := "bolt://localhost:7688"

/-- Runs a survey that answers data. Without a connection the answer is null, after a failure it is
`failed`. -/
def survey (failed : Json) (body : Run Json) : Run Json :=
  orElse (do if ← connectLogging databaseAddress then body else return .null) fun e => do
    logFailure e
    return failed

def rowsJson (rows : Option (List Row)) : Json :=
  match rows with
  | some rows => .arr (rows.map .obj)
  | none => .null

end CodeAtlas.Survey

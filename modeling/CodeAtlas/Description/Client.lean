import CodeAtlas.Session

/-!
# A small database client

Finds a function, its callers and the functions it calls by queries of its own.
-/

namespace CodeAtlas.Description

open Run

/-- A client of the database; without a connection it can only be closed. -/
structure Client where
  isOpen : Bool := true

namespace Client

def open? (address user password : Json) : Run Client := do
  call "driver" [address, .arr [user, password]]
  return {}

def close (c : Client) : Run Unit := do
  if c.isOpen then call "driver.close" []

def run (c : Client) (text : String) (function project : Json) : Run (List Row) := do
  if c.isOpen then query text [("name", function), ("project", project)]
  else throw (.lacks .null "session")

def target : String := "(f:Function \x7bname: $name, project: $project\x7d)"

def find? (c : Client) (function project : Json) : Run (Option Row) := do
  match ← c.run ("MATCH " ++ target ++ " RETURN f") function project with
  | [] | [] :: _ => return none
  | row :: _ => return some (← lift (← Row.column row "f").record)

def column (rows : List Row) (name : String) : Run (List Row) :=
  rows.mapM fun row => do lift (← Row.column row name).record

def callers (c : Client) (function project depth : Json) : Run (List Row) := do
  let text := "MATCH (caller:Function)-[:CALLS*1.." ++ depth.shown ++ "]->" ++ target ++
    " RETURN DISTINCT caller"
  column (← c.run text function project) "caller"

def callees (c : Client) (function project depth : Json) : Run (List Row) := do
  let text := "MATCH " ++ target ++ "-[:CALLS*1.." ++ depth.shown ++
    "]->(callee:Function) RETURN DISTINCT callee"
  column (← c.run text function project) "callee"

end Client

end CodeAtlas.Description

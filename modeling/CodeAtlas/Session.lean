import CodeAtlas.Ast
import CodeAtlas.PlainGraph
import CodeAtlas.CommandLine
import CodeAtlas.FileTree

/-!
# Sessions

A program of this library works on a session: a file tree, the services it may ask (a database, a
word segmenter, a compiler front end, a drawing tool and so on) with the answers they will give,
and what it has written so far. A step is a function of the session that may fail; what was
written before a failure stays written.
-/

namespace CodeAtlas

inductive Argument where
  | data (j : Json)
  | graph (g : AnyGraph)

inductive Request where
  | query (text : String) (params : Dict Json)
  | call (name : String) (args : List Argument)
  | node (label : String) (props : Dict Json)
  /-- A relation written to the database, between nodes given by number. -/
  | relation (kind : String) (source target : Json)
  | merge (label key : String) (props : Dict Json)
  | lookFor (label : String) (props : Dict Json)

inductive TransactionStep where
  | begun (number : Nat)
  | made (number : Nat) (request : Request)
  | committed (number : Nat)

abbrev Row := Dict Json

inductive QueryOutcome where
  | rows (rows : List Row)
  | nothing
  | fail (message : String)

/-- The database: the outcomes of the next queries, and the answers of its named operations. -/
structure Database where
  outcomes : List QueryOutcome := []
  answers : Dict Json := []
  refusal : Option String := none
  connected : Bool := true
  absent : List String := []

inductive ModelReply where
  | refused (message : String)
  | reply (data : Json)

inductive ParseOutcome where
  | tree (a : Ast)
  | fail (message : String)

inductive GraphOutcome where
  | graph (g : AnyGraph)
  | fail (message : String)

inductive Drawing where
  | missing
  | fails
  | failsQuietly
  | draws
  | drawsNothing
deriving Repr, DecidableEq

structure Machine where
  platform : String := "Linux"
  known : List String := []
  globs : Dict (List String) := []
  libraries : Option String := none
  badCommands : List String := []
  release : Option String := none
  linkRefusal : Option String := none
  badLibraries : Dict String := []
  /-- The next outcomes of starting the front end: none for success, or a reason for failure. -/
  starts : List (Option String) := []
  version : Option String := some "clang version 13"
  tellsVersion : Bool := true
  hasConfiguration : Bool := true
  drawing : Drawing := .missing
  environment : Dict String := []
  times : Dict Json := []
  compilerSearch : Option Int := none
  compilerOutput : Option String := none

structure Picture where
  kind : String
  source : String := ""
  text : String
  target : String
deriving Repr, DecidableEq

structure Session where
  tree : FileTree
  machine : Machine := {}
  database : Database := {}
  segments : Option (List String) := none
  /-- The answer of the language model service, if it can be reached. -/
  model : Option ModelReply := none
  trees : Dict ParseOutcome := []
  graphs : Option (Dict GraphOutcome) := none
  project : CallGraph := {}
  /-- The neighbours that a vector search finds, with their distances. -/
  hits : List (Float × Int) := []
  graphLibrary : Bool := false
  input : List String := []
  /-- The requests made, the latest first. -/
  requests : List Request := []
  /-- The steps of transactions, the latest first. -/
  transactions : List TransactionStep := []
  /-- The pieces of text written, the latest first. -/
  written : List String := []
  /-- The messages logged, the latest first, each with its level. -/
  messages : List (String × String) := []
  /-- The pictures asked for, the latest first. -/
  pictures : List Picture := []

abbrev Run := ExceptT Fault (StateM Session)

namespace Run

def lift {α : Type} (x : Except Fault α) : Run α := ExceptT.mk (pure x)

def attempt {α : Type} (x : Run α) : Run (Except Fault α) :=
  ExceptT.mk do
    match ← x.run with
    | .ok a => return .ok (.ok a)
    | .error (.exit n) => return .error (.exit n)
    | .error e => return .ok (.error e)

def orElse {α : Type} (x : Run α) (mend : Fault → Run α) : Run α := do
  match ← attempt x with
  | .ok a => return a
  | .error e => mend e

def andFinally {α : Type} (x : Run α) (last : Run Unit) : Run α :=
  ExceptT.mk do
    let outcome ← x.run
    match ← last.run with
    | .ok _ => return outcome
    | .error e => return .error e

def write (s : String) : Run Unit :=
  modify fun w => { w with written := s :: w.written }

def say (s : String) : Run Unit := write (s ++ "\n")

def request (r : Request) : Run Unit :=
  modify fun w => { w with requests := r :: w.requests }

def callWith (name : String) (g : CallGraph) (args : List Json) : Run Unit :=
  request (.call name (.graph (.full g) :: args.map .data))

def call (name : String) (args : List Json) : Run Unit :=
  request (.call name (args.map .data))

def log (level message : String) : Run Unit :=
  modify fun w => { w with messages := (level, message) :: w.messages }

def info (message : String) : Run Unit := log "INFO" message

def warn (message : String) : Run Unit := log "WARNING" message

def err (message : String) : Run Unit := log "ERROR" message

/-- Reads a command line; one that does not fit ends the program. -/
def commandLine (g : CommandLine.Grammar) (words : List String) : Run (Dict Json) :=
  match CommandLine.parse g words with
  | .ok values => return values
  | .error status => throw (.exit status)

def tree : Run FileTree := do return (← get).tree

def setTree (t : FileTree) : Run Unit := modify fun w => { w with tree := t }

def machine : Run Machine := do return (← get).machine

def ask (prompt : String) : Run String := do
  write prompt
  match (← get).input with
  | [] => throw .endOfInput
  | line :: rest =>
    modify fun w => { w with input := rest }
    return line

def pathExists (path : String) : Run Bool := do
  let w ← get
  return w.tree.exists path || w.machine.known.contains path

def writeFile (path text : String) : Run Unit := do
  setTree (← lift ((← tree).writeText path text))

def makeDirs (path : String) : Run Unit := do
  setTree (← lift ((← tree).makeDirs path))

def glob (pattern : String) : Run (List String) := do
  return ((← machine).globs.get? pattern).getD []

def useLibrary (path : String) : Run Unit := do
  call "set_library" [.str path]
  match (← machine).badLibraries.get? path with
  | some reason => throw (.service reason)
  | none => return

def startFrontEnd : Run Unit := do
  match (← machine).starts with
  | [] => return
  | outcome :: rest =>
    modify fun w => { w with machine := { w.machine with starts := rest } }
    match outcome with
    | some reason => throw (.service reason)
    | none => return

def runCommand (words : List String) : Run Unit := do
  call "check_call" (words.map .str)
  let bad := (← machine).badCommands
  if bad.contains (words.headD "") || (words.contains "pip" && bad.contains "pip") then
    throw (.commandFailed ("Command '" ++ (Json.ofStrings words).literal ++
      "' returned non-zero exit status 1.") none)

def connect : Run Unit := do
  match (← get).database.refusal with
  | some reason => throw (.service reason)
  | none => return

def query? (text : String) (params : Dict Json) : Run (Option (List Row)) := do
  request (.query text params)
  let d := (← get).database
  match d.outcomes with
  | [] => return some []
  | o :: rest =>
    modify fun w => { w with database := { w.database with outcomes := rest } }
    match o with
    | .rows rows => return some rows
    | .nothing => return none
    | .fail message => throw (.service message)

def query (text : String) (params : Dict Json) : Run (List Row) := do
  match ← query? text params with
  | some rows => return rows
  | none => throw (.wrongShape "'NoneType' object is not iterable")

def queryOn (connected : Bool) (text : String) : Run (Option (List Row)) :=
  if connected then query? text []
  else throw (.lacks .null "execute_custom_query")

def draw (p : Picture) : Run Unit := do
  modify fun w => { w with pictures := p :: w.pictures }
  let failure := fun note =>
    Fault.commandFailed "Command '['dot']' returned non-zero exit status 1." note
  match (← machine).drawing with
  | .missing => throw (.service "no graphviz")
  | .fails => throw (failure (some "bad"))
  | .failsQuietly => throw (failure none)
  | .draws => writeFile p.target ""
  | .drawsNothing => return

def post (url : String) (payload : Json) : Run Json := do
  match (← get).model with
  | none => throw (.service "no network")
  | some reply =>
    call "post" [.str url, payload]
    match reply with
    | .refused message => throw (.service message)
    | .reply data => return data

def ask? (name : String) (args : List Json) : Run (Option Json) := do
  call name args
  return (← get).database.answers.get? name

end Run

def Row.column (r : Row) (key : String) : Run Json :=
  match Dict.get? r key with
  | some v => return v
  | none => throw (.missingKey key)

end CodeAtlas

import CodeAtlas.Analysis.File
import CodeAtlas.CompileCommands.Database

/-!
# Indexing a project anew

What the programs that clear a project and index its sources again have in common: their command
line, the choice of files, and the way in which the graphs of files are put together.
-/

namespace CodeAtlas.Indexing

open Run CommandLine

def connectionParameters : List CommandLine.Parameter :=
  [option "neo4j_uri" ["--neo4j-uri"] (.str "bolt://localhost:7688"),
   option "neo4j_user" ["--neo4j-user"] (.str "neo4j"),
   option "neo4j_password" ["--neo4j-password"] (.str "password")]

def projectParameters : List CommandLine.Parameter :=
  [needed "folly_path" ["--folly-path"],
   option "project" ["--project"] (.str "folly"),
   number "workers" ["--workers"] (.int 4)] ++ connectionParameters ++
  [flag "clear_all" ["--clear-all"]]

def excludedParts : List String := ["test", "benchmark", "example"]

def projectFiles (t : FileTree) (dir : String) : List String :=
  (Analysis.sourceFiles t dir [".cpp", ".cc", ".cxx", ".h", ".hpp"]).filter fun path =>
    !excludedParts.any (Text.occursIn · (Text.lower path))

abbrev FileFlags := String → Except Fault (List String × List String)

def callCountQuery : String :=
  Text.block 12
    ["MATCH ()-[r:CALLS]->() WHERE r.project = $project",
     "RETURN count(r) as call_count"]

def reportCalls (project : String) : Run Unit := do
  match ← query callCountQuery [("project", .str project)] with
  | [] | [] :: _ => return
  | row :: _ => info ("Created " ++ (← Row.column row "call_count").shown ++ " CALLS relationships")

def clearProject (args : Dict Json) (project : String) : Run Unit := do
  if isOn args "clear_all" then
    info "Clearing all data from Neo4j database..."
    call "clear_database" []
  else
    info ("Clearing existing data for project '" ++ project ++ "' from Neo4j database...")
    call "clear_project" [.str project]

/-- Puts the graphs of files together in the order of the files, and reports failures and, from
time to time, progress. What comes along with the graphs is listed. -/
def collect {α : Type} (combine : Function → Function → Function)
    (outcomes : List (Except Fault (CallGraph × α))) : Run (CallGraph × List α) := do
  let total := outcomes.length
  let (g, others, _) ← outcomes.foldlM (fun (g, others, n) outcome => do
    match outcome with
    | .ok (part, other) =>
      if n % 10 == 0 || n == total then info s!"Processed {n}/{total} files"
      return (CallGraph.mergeWith combine g part, others ++ [other], n + 1)
    | .error e =>
      err ("Error analyzing file: " ++ e.message)
      return (g, others, n + 1)) (({} : CallGraph), [], 1)
  return (g, others)

def storeGraph (project : String) (g : CallGraph) : Run Unit := do
  info ("Storing analysis results in Neo4j (" ++ project ++ ")...")
  callWith "index_call_graph" g [.str project, .bool false]
  info s!"Indexed {g.functions.length} functions and {g.missing.length} missing functions"
  reportCalls project

/-- Runs an indexing of the directory of a project, which must exist, if the database can be
reached. -/
def onProject (args : Dict Json) (body : String → Run Unit) : Run Unit := do
  let dir := Path.tidy (textOf args "folly_path")
  if !(← tree).exists dir then err ("Folly path does not exist: " ++ dir)
  else
    info ("Connecting to Neo4j at " ++ textOf args "neo4j_uri")
    connect
    if !(← get).database.connected then
      err "Failed to connect to Neo4j. Please check connection settings."
    else
      info "Successfully connected to Neo4j"
      body dir

def startLog (path : String) : Run Unit := do
  if !(← tree).isFile path then writeFile path ""

def findDatabase? (dir : String) : Run (Option CompilationDatabase) := do
  match ← CompilationDatabase.find? dir with
  | none => return none
  | some path =>
    info ("Found compile_commands.json at " ++ path)
    return some (← CompilationDatabase.load {} path).1

end CodeAtlas.Indexing

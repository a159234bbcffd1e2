import CodeAtlas.Analysis.File
import CodeAtlas.Digest.Md5
import CodeAtlas.Session.Document
import CodeAtlas.Wildcard

/-!
# The indexer

The indexer analyses files and directories and stores their graphs. It works with what is
installed: the library of the graph database, the front end and the project analyser may each be
missing. On its own it works with plain graphs.

Without a compilation database, directories with telling names and directories full of headers are
taken as include directories.
-/

namespace CodeAtlas.Indexing

open Run

def includeNames : List String := ["include", "inc", "headers", "third-party"]

def namedIncludeDirs (stops : List FileTree.Stop) : List String :=
  stops.flatMap fun s =>
    (s.dirs.filter fun d => includeNames.contains (Text.lower d)).map (Path.join s.dir)

def headerCount (files : List String) : Nat :=
  files.countP (Text.endsWithAny · [".h", ".hpp", ".hxx"])

/-- The directories with more than five headers, those with the most headers first. -/
def headerDirs (stops : List FileTree.Stop) : List String :=
  let counted := (stops.map fun s => (s.dir, headerCount s.files)).filter fun (_, n) => 5 < n
  (counted.mergeSort fun a b => b.2 ≤ a.2).map (·.1)

def likelyIncludeDirs (t : FileTree) (dir : String) : List String :=
  let stops := t.walk dir
  addAllNew (namedIncludeDirs stops) ((headerDirs stops).take 5)

def usualIncludeDirs : String → List String
  | "Windows" =>
    ["C:/Program Files/LLVM/include",
     "C:/Program Files (x86)/Microsoft Visual Studio/2019/Community/VC/Tools/MSVC/14.29.30133" ++
       "/include",
     "C:/Program Files (x86)/Windows Kits/10/Include/10.0.19041.0/ucrt"]
  | "Darwin" =>
    ["/usr/include", "/usr/local/include",
     "/Library/Developer/CommandLineTools/SDKs/MacOSX.sdk/usr/include",
     "/Applications/Xcode.app/Contents/Developer/Platforms/MacOSX.platform/Developer" ++
       "/SDKs/MacOSX.sdk/usr/include"]
  | _ =>
    ["/usr/include", "/usr/local/include", "/usr/include/c++/9", "/usr/include/x86_64-linux-gnu"]

def machineIncludeDirs : Run (List String) := do
  (usualIncludeDirs (← machine).platform).filterM pathExists

/-! ### Installations -/

structure Installation where
  isAlone : Bool := false
  hasLibrary : Bool := true
  hasFrontEnd : Bool := true
  /-- There is an analyser: that of the project or, alone, a ready-made one. -/
  hasAnalyzer : Bool := true
  followsReferences : Bool := false

structure Indexer where
  installation : Installation
  project : Json
  isConnected : Bool

structure IndexOptions where
  includeDirs : Option (List String) := none
  compilerArgs : Option (List String) := none
  endings : Option (List String) := none
  skipped : Option (List String) := none
  templates : Bool := false
  virtuals : Bool := false
  mode : String := "basic"
  isParallel : Bool := false
  workers : Json := .int 4

def IndexOptions.ofValues (values : Dict Json) : IndexOptions :=
  let j := Json.obj values
  let list := fun key => (j.get? key).bind fun l => l.arr?.map (·.map Json.text)
  { includeDirs := list "include_dirs", compilerArgs := list "compiler_args"
    endings := list "file_extensions", skipped := list "skip_patterns"
    templates := (j.field "analyze_templates").truthy, virtuals := (j.field "track_virtual").truthy
    mode := j.textAt "cross_file_mode" "basic", isParallel := (j.field "parallel").truthy
    workers := j.getD "max_workers" (.int 4) }

namespace Indexer

def start (i : Installation) (uri project : Json) : Run Indexer := do
  let isConnected ←
    if i.hasLibrary then
      orElse (do
        connect
        info ("Connected to Neo4j at " ++ uri.shown)
        return true) fun e => do
          err ("Error connecting to Neo4j: " ++ e.message)
          return false
    else pure false
  if !i.isAlone && i.hasFrontEnd then info "Clang analyzer service initialized"
  return { installation := i, project, isConnected }

def projectOr (x : Indexer) (given : Json) : Json := if given.truthy then given else x.project

/-- The graph without functions, of the kind that this indexer puts graphs together in. -/
def blank (x : Indexer) : AnyGraph := if x.installation.isAlone then .plain {} else .full {}

def withDatabase {α : Type} (x : Indexer) (otherwise : α) (body : Run α) : Run α := do
  if x.isConnected then body
  else
    err "Neo4j connection not available"
    return otherwise

def withAnalyzer {α : Type} (x : Indexer) (otherwise : α) (body : Run α) : Run α := do
  if x.installation.hasFrontEnd && x.installation.hasAnalyzer then body
  else
    err "Clang analyzer not available"
    return otherwise

def deleteQuery : String :=
  Text.block 12
    ["    MATCH (n:Function \x7bproject: $project\x7d)",
     "    DETACH DELETE n"]

def clear (x : Indexer) (given : Json) : Run Bool :=
  x.withDatabase false do
    let project := x.projectOr given
    orElse (do
      discard (query? deleteQuery [("project", project)])
      info ("Cleared all data for project: " ++ project.shown)
      return true) fun e => do
        err ("Error clearing project data: " ++ e.message)
        return false

def guessedDirs (dir : String) : Run (List String) := do
  return (← machineIncludeDirs) ++ likelyIncludeDirs (← tree) dir

def filled (dir : String) (o : IndexOptions) : Run (List String × List String) := do
  let dirs ← match o.includeDirs with
    | some dirs => pure dirs
    | none => guessedDirs dir
  return (dirs, o.compilerArgs.getD ["-std=c++17"])

def processFile (x : Indexer) (path : String) (o : IndexOptions) : Run (Option AnyGraph) :=
  x.withAnalyzer none do
    orElse (do
      let flags ← filled (Path.dirName path) o
      let g ← Analysis.analyzeAny x.blank path (some flags)
        [("analyze_templates", .bool o.templates), ("track_virtual_methods", .bool o.virtuals)]
      if o.mode != "basic" && x.installation.followsReferences then
        call "process_cross_file_references" [.str o.mode]
      info s!"Processed file: {path} - Found {g.size} functions"
      return some g) fun e => do
        err ("Error processing file " ++ path ++ ": " ++ e.message)
        return none

def filesIn (t : FileTree) (dir : String) (o : IndexOptions) : List String :=
  (o.endings.getD [".cpp", ".cc", ".cxx", ".c++", ".c"]).flatMap fun e => t.findBelow dir ("*" ++ e)

/-- Analyses files one after the other or side by side, and does something with each graph. Side by
side, all files are analysed first, and a failure of what is done then is logged. -/
def processFiles (x : Indexer) (files : List String) (o : IndexOptions)
    (use : String → AnyGraph → Run AnyGraph) : Run (List AnyGraph) := do
  if o.isParallel && 1 < files.length then
    info ("Using parallel processing with " ++ o.workers.shown ++ " workers")
    let graphs ← files.mapM fun file => do return (file, ← x.processFile file o)
    graphs.filterMapM fun (file, g) => do
      match g with
      | none => return none
      | some g =>
        orElse (some <$> use file g) fun e => do
          err ("Error processing " ++ file ++ ": " ++ e.message)
          return none
  else
    info "Using sequential processing"
    files.filterMapM fun file => do
      match ← x.processFile file o with
      | none => return none
      | some g => some <$> use file g

def combine (x : Indexer) (graphs : List AnyGraph) : Run AnyGraph :=
  lift (graphs.foldlM AnyGraph.merge x.blank)

def usuallySkipped : List String := ["test", "tests", "example", "examples"]

def processDirectory (x : Indexer) (dir : String) (o : IndexOptions) : Run AnyGraph :=
  x.withAnalyzer x.blank do
    let skipped := o.skipped.getD usuallySkipped
    let files := (filesIn (← tree) dir o).filter fun file => !skipped.any (Text.occursIn · file)
    info s!"Found {files.length} files to process in {dir}"
    let (dirs, args) ← filled dir o
    let o := { o with includeDirs := some dirs, compilerArgs := some args }
    let g ← x.combine (← x.processFiles files o fun _ g => return g)
    info s!"Processed {files.length} files - Found {g.size} functions"
    return g

/-- Writes a graph to the database by the library alone, which fails at the first function. -/
def storeAlone : AnyGraph → Except Fault Unit
  | .full g =>
    if g.functions.isEmpty then .ok ()
    else .error (.missingPart "'Function' object has no attribute 'is_declaration'")
  | .plain g =>
    if g.functions.isEmpty then .ok () else .error (.lacks (.obj []) "file_path")

def store (x : Indexer) (g : AnyGraph) (given : Json) (clears : Bool) : Run Bool :=
  x.withDatabase false do
    let project := x.projectOr given
    orElse (do
      if clears then discard (x.clear project)
      if x.installation.isAlone then lift (storeAlone g)
      else
        connect
        request (.call "index_call_graph" [.graph g, .data project, .data (.bool false)])
      info (s!"Stored call graph with {g.size} functions in Neo4j for project: " ++ project.shown)
      return true) fun e => do
        err ("Error storing call graph in Neo4j: " ++ e.message)
        return false

/-- The digest of a file, empty if it cannot be read. -/
def fileDigest (path : String) : Run String := do
  match (← tree).readBytes path with
  | .ok bytes => return bytesHex (Digest.Md5.digest bytes)
  | .error e =>
    err ("Error calculating file hash for " ++ path ++ ": " ++ e.message)
    return ""

def digestQuery : String :=
  Text.block 8
    ["    MATCH (f:Function \x7bproject: $project\x7d)",
     "    RETURN f.file as file, f.hash as hash"]

def storedDigests (project : Json) : Run (List (Json × Json)) := do
  let rows ← query digestQuery [("project", project)]
  rows.foldlM (fun found row => do
    let file ← Row.column row "file"
    let digest ← Row.column row "hash"
    if file.truthy then
      lift file.checkKey
      return found.filter (fun (f, _) => !(f == file)) ++ [(file, digest)]
    else return found) []

def noteDigest (path digest : String) : AnyGraph → Except Fault AnyGraph
  | .full g => do
    let fs ← g.functions.mapM fun (k, f) =>
      if f.filePath != path then .ok (k, f)
      else
        match f.metadata with
        | some data => .ok (k, { f with metadata := some (Dict.set data "hash" (.str digest)) })
        | none => .error (.missingPart "'Function' object has no attribute 'metadata'")
    return .full { g with functions := fs }
  | .plain g =>
    if g.functions.isEmpty then .ok (.plain g) else .error (.lacks (.obj []) "file_path")

def indexFiles (x : Indexer) (dir : String) (files : List String) (project : Json)
    (o : IndexOptions) : Run Unit := do
  let (dirs, args) ← filled dir o
  let o := { o with includeDirs := some dirs, compilerArgs := some args }
  let graphs ← x.processFiles files o fun file g => do
    lift (noteDigest file (← fileDigest file) g)
  let g ← x.combine graphs
  info s!"Processed {files.length} files - Found {g.size} functions"
  discard (x.store g project false)

def indexChanged (x : Indexer) (dir : String) (given : Json) (o : IndexOptions) : Run Bool :=
  x.withAnalyzer false <| x.withDatabase false do
    let project := x.projectOr given
    let files := filesIn (← tree) dir o
    info s!"Found {files.length} files to check in {dir}"
    let stored ← storedDigests project
    info s!"Found {stored.length} existing files in database"
    let changed ← files.filterM fun file => do
      let digest ← fileDigest file
      return !stored.any fun (f, d) => f == .str file && d == .str digest
    info s!"Found {changed.length} files that need to be processed"
    if changed.isEmpty then info "No files need to be processed"
    else x.indexFiles dir changed project o
    return true

def coreDirectory (path : String) : Run String := do
  let usual := Path.join path "folly"
  if ← pathExists usual then return usual
  else
    warn ("Could not find core folly directory at " ++ usual)
    match ((← tree).walk path).find? (·.dirs.contains "folly") with
    | none => return usual
    | some s =>
      let found := Path.join s.dir "folly"
      info ("Found folly core directory at " ++ found)
      return found

def indexCore (x : Indexer) (path : String) (given : Json) (clears : Bool) (o : IndexOptions) :
    Run Bool := do
  let project := if given.truthy then given else .str "folly"
  if !(← pathExists path) then
    err ("Folly path does not exist: " ++ path)
    return false
  else
    let core ← coreDirectory path
    let dirs := [path, core, Path.join path ".."] ++ (← guessedDirs path)
    info ("Starting indexing of Folly codebase at " ++ path)
    let g ← x.processDirectory core
      { o with
        includeDirs := some dirs, compilerArgs := some ["-std=c++17", "-DFOLLY_NO_CONFIG"]
        endings := some [".cpp", ".cc", ".cxx", ".c++"]
        skipped := some (usuallySkipped ++ ["benchmark", "benchmarks"]) }
    x.store g project clears

end Indexer

end CodeAtlas.Indexing

import CodeAtlas.Analysis.Merge
import CodeAtlas.CrossReferences
import CodeAtlas.Extraction.File
import CodeAtlas.Session

/-!
# Analysing files and directories

The analyser asks the front end for the tree of a file and extracts its functions. A directory is
the merge of its files. What goes wrong with one file is reported and leaves the graph of that
file empty.

A session either has a ready-made analyser, which knows the graphs of files, or analyses the trees
of the front end.
-/

namespace CodeAtlas

structure AnalysisOptions where
  includeDirs : List String := []
  compilerArgs : List String := []
  extraction : Extraction.Options := {}
  mode : String := "basic"

namespace Analysis

open Run

def defaultSuffixes : List String := [".c", ".cpp", ".cxx", ".cc", ".h", ".hpp", ".hxx", ".hh"]

def parseFile (path : String) (args : List String) : Run (Option Ast) := do
  call "parse" [.str path, .ofStrings args]
  match (← get).trees.get? path with
  | some (.tree a) => return some a
  | some (.fail message) => throw (.service message)
  | none => return none

def functionsOf (path : String) (options : AnalysisOptions) (a : Ast) : Except Fault Functions := do
  let fs ← Extraction.extract options.extraction path a
  return if options.mode == "basic" then fs else crossReferences (.ofString options.mode) fs

def analyzeParsed (path : String) (options : AnalysisOptions) : Run CallGraph := do
  let args := options.includeDirs.map ("-I" ++ ·) ++ options.compilerArgs
  match ← parseFile path args with
  | none =>
    say ("Error parsing file: " ++ path)
    return {}
  | some a => return { functions := ← lift (functionsOf path options a) }

/-- Analyses a file. A front end that could not be started gives an empty graph. -/
def analyzeFile (path : String) (options : AnalysisOptions) (started : Bool) : Run CallGraph := do
  if !(← pathExists path) then throw (.absent ("File " ++ path ++ " not found"))
  if !started then
    say ("WARNING: Clang index is not available. Cannot analyze file: " ++ path)
    return {}
  orElse (analyzeParsed path options) fun e => do
    say ("Error analyzing file " ++ path ++ ": " ++ e.message)
    return {}

def sourceFiles (t : FileTree) (dir : String) (suffixes : List String) : List String :=
  (t.walk dir).flatMap fun s =>
    (s.files.filter (Text.endsWithAny · suffixes)).map (Path.join s.dir)

/-- Takes in the graph of one more file and reports it. A file without a graph is only reported. -/
def takeIn (kind : String) (total : Nat) (combine : CallGraph → CallGraph → CallGraph) :
    CallGraph × Nat → String × Except Fault CallGraph → Run (CallGraph × Nat)
  | (g, n), (file, .ok part) => do
    say s!"Processed {n}/{total} {kind}: {file}"
    return (combine g part, n + 1)
  | (g, n), (file, .error e) => do
    say ("Error analyzing file " ++ file ++ ": " ++ e.message)
    return (g, n + 1)

def collect (kind : String) (combine : CallGraph → CallGraph → CallGraph)
    (arrivals : List (String × Except Fault CallGraph)) : Run CallGraph := do
  let s ← arrivals.foldlM (takeIn kind arrivals.length combine) ({}, 1)
  return s.1

/-- Analyses several files and puts their graphs together. All files are analysed before the first
graph is put in. -/
def analyzeFiles (files : List String) (kind : String) (started : Bool)
    (combine : CallGraph → CallGraph → CallGraph) : Run CallGraph := do
  let outcomes ← files.mapM fun file => attempt (analyzeFile file {} started)
  collect kind combine (files.zip outcomes)

def analyzeDirectory (dir : String) (suffixes : List String) (started : Bool) : Run CallGraph := do
  let files := sourceFiles (← tree) dir suffixes
  say s!"Found {files.length} files to analyze"
  analyzeFiles files "files" started CallGraph.absorb

def indexedFilesQuery : String :=
  Text.block 16
    ["MATCH (f:Function \x7bproject: $project\x7d)", "RETURN DISTINCT f.file_path AS file_path"]

def indexedAtQuery : String :=
  Text.block 28
    ["MATCH (f:Function \x7bproject: $project, file_path: $file_path\x7d)",
     "RETURN f.indexed_at AS indexed_at",
     "LIMIT 1"]

def greater (a b : Json) : Except Fault Bool :=
  match a, b with
  | .int x, .int y => .ok (decide (x > y))
  | .float x, .float y => .ok (decide (x > y))
  | .int x, .float y => .ok (decide (Float.ofInt x > y))
  | .float x, .int y => .ok (decide (x > Float.ofInt y))
  | _, _ => .error (.wrongShape "'>' not supported between these values")

def modificationTime (path : String) : Run Json := do
  let w ← get
  if !w.tree.exists path then throw (.noFile path)
  return (w.machine.times.get? path).getD (.int 0)

def hasChanged (project file : String) : Run Bool :=
  orElse (do
    let rows ← query indexedAtQuery [("project", .str project), ("file_path", .str file)]
    match rows with
    | [] => return true
    | row :: _ =>
      -- a row without columns counts as no row
      if row.isEmpty then return true
      let at' ← Row.column row "indexed_at"
      if at'.truthy then lift (greater (← modificationTime file) at') else return true)
    fun _ => return true

def analyzeChanged (dir project : String) (suffixes : List String) (started : Bool) :
    Run (CallGraph × List String) := do
  let files := sourceFiles (← tree) dir suffixes
  connect
  let rows ← query indexedFilesQuery [("project", .str project)]
  let indexed ← rows.filterMapM fun row => do
    let path ← Row.column row "file_path"
    return if path.truthy then some path else none
  let changed ← files.filterM fun file => do
    if indexed.contains (.str file) then hasChanged project file else return true
  say s!"Found {changed.length} changed files out of {files.length} total files"
  let g ← analyzeFiles changed "changed files" started CallGraph.overlay
  return (g, changed)

/-! ### The analyser of a session -/

def namedOptions (includeDirs compilerArgs : List String) (named : Dict Json) : AnalysisOptions :=
  let isOn := fun key => ((named.get? key).getD (.bool true)).truthy
  { includeDirs, compilerArgs
    extraction := ⟨isOn "analyze_templates", isOn "track_virtual_methods"⟩
    mode := match named.get? "cross_file_mode" with
      | some (.str m) => m
      | _ => "basic" }

/-- The graph of a file, by the analyser of the session. The flags are the include directories and
the compiler options, if any are given. A ready-made analyser answers `blank` for files that it
does not know. -/
def analyzeAny (blank : AnyGraph) (path : String) (flags : Option (List String × List String))
    (named : Dict Json) : Run AnyGraph := do
  let (dirs, options) := flags.getD ([], [])
  match (← get).graphs with
  | none => return .full (← analyzeFile path (namedOptions dirs options named) true)
  | some graphs =>
    let shown := fun (part : List String × List String → List String) =>
      ((flags.map part).map Json.ofStrings).getD .null
    call "analyze" [.str path, shown (·.1), shown (·.2), .obj named]
    match graphs.get? path with
    | some (.graph g) => return g
    | some (.fail message) => throw (.service message)
    | none => return blank

/-- The graph of a file, by an analyser that does not answer plain graphs. -/
def analyze (path : String) (flags : Option (List String × List String)) (named : Dict Json) :
    Run CallGraph := do
  match ← analyzeAny (.full {}) path flags named with
  | .full g => return g
  | .plain _ => return {}

def requireDirectories : Run Unit := do
  if (← get).graphs.isSome then
    throw (.missingPart "'Analyzer' object has no attribute 'analyze_directory'")

end Analysis

end CodeAtlas

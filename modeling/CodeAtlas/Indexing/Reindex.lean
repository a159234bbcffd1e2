import CodeAtlas.Indexing.Indexer
import CodeAtlas.Indexing.Metrics
import CodeAtlas.Indexing.Project
import CodeAtlas.Resolution.Signature

/-!
# The reindexing program

Clears a project in the database, analyses its sources again, resolves missing functions and stores
the graph.
-/

namespace CodeAtlas.Indexing

open Run CommandLine

def reindexGrammar : CommandLine.Grammar :=
  simple
    (projectParameters ++
    [flag "output_metrics" ["--output-metrics"],
     flag "enhanced_template_handling" ["--enhanced-template-handling"],
     flag "track_virtual_methods" ["--track-virtual-methods"],
     several "fallback_include_dirs" ["--fallback-include-dirs"],
     { key := "cross_file_mode", names := ["--cross-file-mode"]
       choices := ["basic", "enhanced", "full"], default := .str "basic" }])

def takeOver (f other : Function) : Function :=
  let known := f.metadata.getD []
  let more := (other.metadata.getD []).filter fun (k, _) => !known.has k
  { f.joinCalls other with metadata := f.metadata.map (· ++ more) }

def fallbackDirs (args : Dict Json) (dir : String) : Run (List String) := do
  warn "No compile_commands.json found. Using heuristic include path detection."
  match texts? args "fallback_include_dirs" with
  | some dirs =>
    info ("Using provided fallback include directories: " ++ (Json.ofStrings dirs).literal)
    return dirs
  | none =>
    info "Performing heuristic include path detection..."
    let likely := likelyIncludeDirs (← tree) dir
    info s!"Detected {likely.length} potential include paths"
    info "Detecting system include paths..."
    let usual ← machineIncludeDirs
    info s!"Added {usual.length} system include paths"
    return likely ++ usual

/-- Where the flags of files come from: the compilation database, if there is one. -/
def findFlags (args : Dict Json) (dir : String) : Run FileFlags := do
  match ← findDatabase? dir with
  | some d => return fun file => do return (← d.includePaths file, ← d.compilerOptions file)
  | none =>
    let dirs ← fallbackDirs args dir
    return fun _ => .ok (dirs, [])

def analyzeMeasured (args : Dict Json) (file : String) (dirs options : List String) :
    Run (CallGraph × Json) := do
  let g ← Analysis.analyze file (some (dirs, options))
    [("analyze_templates", .bool (isOn args "enhanced_template_handling")),
     ("track_virtual_methods", .bool (isOn args "track_virtual_methods"))]
  return (g, ← lift (fileMetrics file g))

def analyzeAll (args : Dict Json) (flags : FileFlags) (files : List String) :
    Run (CallGraph × List Json) := do
  let outcomes ← files.mapM fun file => do
    let (dirs, options) ← lift (flags file)
    attempt (analyzeMeasured args file dirs options)
  collect takeOver outcomes

/-- Resolves missing functions as far as the command line asks for it. -/
def resolveAsked (args : Dict Json) (g : CallGraph) : Run CallGraph := do
  let mode := textOf args "cross_file_mode"
  if mode == "basic" then return g
  else
    info ("Processing cross-file references (mode: " ++ mode ++ ")...")
    let (g, n) ← lift (Resolution.resolveMissing (.ofString mode) g)
    info s!"Resolved {n.getD 0} cross-file references"
    return g

def reindex (args : Dict Json) (dir : String) : Run Unit := do
  let project := textOf args "project"
  clearProject args project
  info "Setting up compile commands service..."
  let flags ← findFlags args dir
  info "Initializing Clang analyzer..."
  info ("Will exclude files with patterns: " ++ (Json.ofStrings excludedParts).literal)
  let files := projectFiles (← tree) dir
  info s!"Found {files.length} files to analyze (after filtering)"
  info ("Analyzing with " ++ toString (numberOf args "workers") ++ " workers")
  let (g, metrics) ← analyzeAll args flags files
  info s!"Analysis complete. Found {g.functions.length} functions"
  let g ← resolveAsked args g
  storeGraph project g
  if isOn args "output_metrics" then
    let target := "folly_indexing_metrics_" ++ clockStamp ++ ".json"
    writeFile target
      (Json.render ⟨true, some 2⟩ (runMetrics (← machine).platform files.length g metrics))
    info ("Saved metrics to " ++ target)
  info "Re-indexing complete"
  info "Total execution time: 0.00 seconds"

def reindexMain (words : List String) : Run Unit := do
  let args ← commandLine reindexGrammar words
  startLog ("folly_indexing_" ++ clockStamp ++ ".log")
  onProject args (reindex args)

end CodeAtlas.Indexing

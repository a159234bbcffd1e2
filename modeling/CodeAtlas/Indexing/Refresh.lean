import CodeAtlas.Indexing.Project

/-!
# The refreshing program

Clears a project in the database, analyses its sources again and stores the graph as it is.
-/

namespace CodeAtlas.Indexing

open Run CommandLine

def refreshGrammar : CommandLine.Grammar := simple projectParameters

def plainFlags (dir : String) : Run FileFlags := do
  match ← findDatabase? dir with
  | some d => return fun file => do return (← d.includePaths file, ← d.compilerOptions file)
  | none =>
    warn "No compile_commands.json found. Include paths may be incomplete."
    return fun _ => .ok ([], [])

def refresh (args : Dict Json) (dir : String) : Run Unit := do
  let project := textOf args "project"
  clearProject args project
  info "Setting up compile commands service..."
  let flags ← plainFlags dir
  info "Initializing Clang analyzer..."
  info ("Will exclude files with patterns: " ++ (Json.ofStrings excludedParts).literal)
  let files := projectFiles (← tree) dir
  info s!"Found {files.length} files to analyze (after filtering)"
  info ("Analyzing with " ++ toString (numberOf args "workers") ++ " workers")
  let outcomes ← files.mapM fun file => do
    let given ← lift (flags file)
    attempt do return (← Analysis.analyze file (some given) [], ())
  let (g, _) ← collect Function.joinCalls outcomes
  info s!"Analysis complete. Found {g.functions.length} functions"
  storeGraph project g
  info "Re-indexing complete"

def refreshMain (words : List String) : Run Unit := do
  let args ← commandLine refreshGrammar words
  onProject args (refresh args)

end CodeAtlas.Indexing

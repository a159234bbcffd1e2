import CodeAtlas.Diagram.Relations
import CodeAtlas.Indexing.Project

/-!
# The drawing program

Analyses a directory, stores its graph and draws the relations that the database then knows.
-/

namespace CodeAtlas.Indexing

open Run CommandLine

def drawingGrammar : CommandLine.Grammar :=
  simple
    ([needed "source" ["--source"],
      option "output" ["--output"] (.str "folly_callgraph.png"),
      option "project" ["--project"] (.str "folly"),
      number "limit" ["--limit"] (.int 1000),
      number "depth" ["--depth"] (.int 2),
      option "focus" ["--focus"] .null,
      number "workers" ["--workers"] (.int 4)] ++ connectionParameters ++
     [flag "skip_analysis" ["--skip-analysis"]])

def storeSources (args : Dict Json) (dir project : String) : Run Unit := do
  info "Analyzing Folly source code..."
  if (← findDatabase? dir).isNone then
    warn "No compile_commands.json found. Include paths may be incomplete."
  info ("Analyzing directory: " ++ dir ++ " with " ++
    toString (numberOf args "workers") ++ " workers")
  Analysis.requireDirectories
  let g ← Analysis.analyzeDirectory dir [".cpp", ".cc", ".cxx"] true
  info ("Storing analysis results in Neo4j (" ++ project ++ ")...")
  callWith "index_call_graph" g [.str project, .bool true]
  info s!"Indexed {g.functions.length} functions in Neo4j"

def drawRelations (q : Diagram.RelationQuery) (target : String) : Run Unit := do
  match ← Diagram.relationDiagram? q true with
  | none => return
  | some text => discard (Diagram.makePicture? "" text target)

def drawOrSimplify (q : Diagram.RelationQuery) (target : String) : Run Unit := do
  info "Generating call graph visualization..."
  orElse (do
    drawRelations q target
    info ("Call graph visualization saved to " ++ target)) fun e => do
      err ("Error generating visualization: " ++ e.message)
      info "Attempting simplified visualization..."
      orElse (do
        drawRelations { q with depth := 1, limit := 500 } target
        info ("Simplified call graph visualization saved to " ++ target)) fun e =>
          err ("Simplified visualization also failed: " ++ e.message)

def drawingMain (words : List String) : Run Unit := do
  let args ← commandLine drawingGrammar words
  startLog "folly_graph_generation.log"
  let dir := textOf args "source"
  let project := textOf args "project"
  let target := textOf args "output"
  info ("Starting Folly call graph generation for " ++ dir)
  makeDirs (Path.parent target)
  connect
  if isOn args "skip_analysis" then
    info "Skipping analysis, using existing Neo4j data..."
  else storeSources args dir project
  drawOrSimplify
    { project, depth := numberOf args "depth", limit := numberOf args "limit"
      focus := text? args "focus" } target
  info "Completed in 0.00 seconds"

end CodeAtlas.Indexing

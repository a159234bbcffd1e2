import CodeAtlas.Embedding.BlockIndex
import CodeAtlas.Analysis.File
import CodeAtlas.Search.Report
import CodeAtlas.Search.Sources

/-!
# The index tool

Puts code into the database and looks it up there.
-/

namespace CodeAtlas.Tool

open Run CommandLine

def indexGrammar : CommandLine.Grammar :=
  let project := needed "project" ["--project"]
  .mk [] "command"
    [("index", simple
       [positional "path", project,
        flag "clear" ["--clear"],
        flag "use_clang" ["--use-clang"],
        several "include_dirs" ["--include-dirs"],
        several "compiler_args" ["--compiler-args"],
        flag "parallel" ["--parallel"],
        number "workers" ["--workers"] (.int 4),
        flag "incremental" ["--incremental"],
        several "changed_files" ["--changed-files"]]),
     ("search", simple
       [positional "query", option "project" ["--project"] .null]),
     ("neighbors", simple
       [positional "function", project,
        { key := "direction", names := ["--direction"], choices := ["callers", "callees", "both"]
          default := .str "both" },
        number "depth" ["--depth"] (.int 1)]),
     ("nlquery", simple
       [positional "description", project,
        { key := "language", names := ["--language"], choices := ["auto", "zh", "en"]
          default := .str "auto" },
        number "limit" ["--limit"] (.int 10),
        flag "verbose" ["--verbose", "-v"]]),
     ("embedding-index", simple [needed "project_dir" ["--project-dir"]]),
     ("embedding-search", simple
       [needed "project_dir" ["--project-dir"], needed "query" ["--query"]])]

/-- Analyses a file and puts its graph into the database. Directories are not supported. -/
def indexPath (args : Dict Json) : Run Unit := do
  let path := textOf args "path"
  let project := Json.str (textOf args "project")
  if isOn args "use_clang" then
    if (← tree).isDir path then throw (.wrongShape "unexpected argument: include_dirs")
    let options : AnalysisOptions :=
      { includeDirs := (texts? args "include_dirs").getD []
        compilerArgs := (texts? args "compiler_args").getD [] }
    let g ← Analysis.analyzeFile path options true
    match isOn args "incremental", texts? args "changed_files" with
    | true, some changed => callWith "incremental_index" g [project, .ofStrings changed]
    | _, _ =>
      callWith "index_clang_callgraph" g [project, .bool (isOn args "clear")]

def searchProject (args : Dict Json) : Run Unit := do
  match text? args "project" with
  | none =>
    throw (.wrongShape "stat: path should be string, bytes, os.PathLike or integer, not NoneType")
  | some path =>
    let names := (textOf args "query").toList.map fun c => String.ofList [c]
    let places ← Search.searchFunctions names path Search.defaultFilePatterns
    if places.isEmpty then say "No results found."
    else
      say "Found functions:"
      places.keys.forM fun name => say ("  - " ++ name)

def sayNames (title none : String) (names : List Json) : Run Unit := do
  say title
  if names.isEmpty then say none else names.forM fun n => say ("  - " ++ n.shown)

def showNeighbours (args : Dict Json) : Run Unit := do
  let function := textOf args "function"
  let project := textOf args "project"
  let direction := textOf args "direction"
  let depth := Json.int (numberOf args "depth")
  if direction != "callees" then
    sayNames ("Functions that call '" ++ function ++ "':") "  No callers found."
      (← Search.callers function project depth)
  if direction != "callers" then
    sayNames ("Functions called by '" ++ function ++ "':") "  No callees found."
      (← Search.callees function project depth)

def answerQuestion (args : Dict Json) : Run Unit :=
  orElse (do
    let question := textOf args "description"
    let language ← Search.chosenLanguage (textOf args "language") question
    let found ← Search.searchByDescription question (textOf args "project")
      (numberOf args "limit") language
    Search.sayFound question found fun f => do
      if isOn args "verbose" then Search.sayDetails true f) fun e => do
    match e with
    | .notInstalled m =>
      say ("Error: " ++ m)
      say "Make sure the required packages are installed."
    | e => say ("Error during natural language query: " ++ e.message)
    throw (.exit 1)

def indexMain (words : List String) : Run Unit := do
  let args ← commandLine indexGrammar words
  match text? args "command" with
  | none =>
    say "Error: No command specified. Use --help for usage information."
    throw (.exit 1)
  | some command =>
    connect
    match command with
    | "index" => indexPath args
    | "search" => searchProject args
    | "neighbors" => showNeighbours args
    | "nlquery" => answerQuestion args
    | command =>
      let start := Embedding.BlockIndex.start (textOf args "project_dir") Embedding.defaultModel
      let x ← (← start).build
      if command == "embedding-index" then say "Embedding index built."
      else
        let query := textOf args "query"
        Embedding.BlockIndex.sayHits (← x.search (.str query) (.int 5))

end CodeAtlas.Tool

import CodeAtlas.Files
import CodeAtlas.Search.Sources

/-!
# The analysis tool

Analyses code with the project analyser, searches sources, writes stubs for missing functions and
asks the database.
-/

namespace CodeAtlas.Tool

open Run Text CommandLine

def analysisGrammar : CommandLine.Grammar :=
  let project := option "project" ["--project", "-p"] (.str "default")
  let patterns := Json.str Search.defaultFilePatterns
  let name := positional "name"
  let depth := number "depth" ["--depth", "-d"] (.int 1)
  .mk [] "command"
    [("analyze", simple
       [positional "path", option "output" ["--output", "-o"] .null,
        option "pattern" ["--pattern", "-p"] patterns]),
     ("search", simple
       [positional "functions", positional "path",
        option "pattern" ["--pattern", "-p"] patterns]),
     ("fix", simple
       [positional "missing_file", positional "output_file"]),
     ("index", simple
       [positional "path", project, option "pattern" ["--pattern"] patterns,
        flag "clear" ["--clear", "-c"]]),
     ("query", .mk [] "query_type"
       [("function", simple [name, project]),
        ("callers", simple [name, project, depth]),
        ("callees", simple [name, project, depth]),
        ("missing", simple [project])])]

def analysisDir : String := "output/analysis"

def stubsDir : String := "output/stubs"

def projectGraph? (path pattern : String) : Run (Option CallGraph) := do
  let w ← get
  if w.tree.isFile path then
    call "analyze_file" [.str path]
    return some w.project
  else if w.tree.isDir path then
    call "analyze_directory" [.str path, .str pattern]
    return some w.project
  else
    say ("Error: Path " ++ path ++ " not found")
    return none

def functionLines (name : String) (f : Function) : List String :=
  let group := fun (title : String) (names : List String) =>
    if names.isEmpty then [] else ("  " ++ title ++ ":") :: names.map ("    - " ++ ·)
  ["", name ++ " [" ++ f.filePath ++ ":" ++ toString f.lineNumber ++ "]"] ++
    group "Calls" f.calls ++
    group "Called by" f.calledBy

def analysisReport (g : CallGraph) : String :=
  let lines := ["Analysis Results", "===============", "",
      "Total functions found: " ++ toString g.functions.length,
      "Missing functions: " ++ toString g.missing.length, "", "Function Call Graph:"] ++
    g.functions.flatMap (fun (name, f) => functionLines name f) ++
    ["", "Missing Functions:"] ++ (sorted g.missing).map ("  - " ++ ·)
  String.join (lines.map (· ++ "\n"))

def runAnalyze (args : Dict Json) : Run Unit := do
  let path := textOf args "path"
  match ← projectGraph? path (textOf args "pattern") with
  | none => return
  | some g =>
    say (s!"Analysis complete. Found {g.functions.length} functions " ++
      s!"and {g.missing.length} missing functions.")
    let given := textOf args "output"
    let target :=
      if !given.isEmpty then given
      else Path.join analysisDir (((split (Path.baseName path) ".").headD "") ++ "_analysis.txt")
    Files.ensureDir (Path.dirName target)
    writeFile target (analysisReport g)
    say ("Results saved to " ++ target)

def runSearch (args : Dict Json) : Run Unit := do
  let names := (split (textOf args "functions") ",").map strip
  let places ← Search.searchFunctions names (textOf args "path")
    (textOf args "pattern")
  places.forM fun (name, found) =>
    if found.isEmpty then say ("Function '" ++ name ++ "' not found")
    else do
      say ("Function '" ++ name ++ "' found in " ++ toString found.length ++ " locations:")
      found.forM fun place => say ("  - " ++ place)

def runFix (args : Dict Json) : Run Unit := do
  let source := textOf args "missing_file"
  if !(← pathExists source) then say ("Error: Missing functions file " ++ source ++ " not found")
  else
    let text ← lift ((← tree).readText source)
    let names := ((split text "\n").map strip).filter (!·.isEmpty)
    if names.isEmpty then say "No missing functions found in the file"
    else
      let given := textOf args "output_file"
      let target := if given.isEmpty then Path.join stubsDir "missing_functions.h" else given
      Files.writeContent target (Search.stubs names)
      say ("Generated stubs for " ++ toString names.length ++ " functions in " ++ target)

def sayUnconnected : Run Unit :=
  say "Error: Unable to connect to Neo4j database. Please make sure Neo4j is running."

def runIndex (args : Dict Json) : Run Unit := do
  if !(← get).database.connected then sayUnconnected
  else
    if isOn args "clear" then
      say "Clearing existing data from Neo4j database..."
      call "clear_database" []
    let path := textOf args "path"
    let project := textOf args "project"
    say ("Analyzing code at " ++ path ++ "...")
    match ← projectGraph? path (textOf args "pattern") with
    | none => return
    | some g =>
      let n := toString g.functions.length
      say ("Indexing " ++ n ++ " functions in Neo4j...")
      callWith "index_call_graph" g [.str project, .bool false]
      say ("Indexing complete. Indexed " ++ n ++ " functions in project '" ++ project ++ "'.")

def sayFunction (name project : String) : Run Unit := do
  let found := (← ask? "find_function" [.str name, .str project]).getD .null
  if found.truthy then
    say ("Function: " ++ name)
    say ("Project: " ++ project)
    say ("File: " ++ (← lift (found.fieldOr "file_path" (.str "Unknown"))).shown)
    say ("Line: " ++ (← lift (found.fieldOr "line_number" (.str "Unknown"))).shown)
    say ("Defined: " ++ (← lift (found.fieldOr "is_defined" (.bool false))).shown)
  else say ("Function '" ++ name ++ "' not found in project '" ++ project ++ "'")

def sayNumbered (items : List Json) (line : Json → Except Fault String) : Run Unit :=
  (items.zip (List.range items.length)).forM fun (item, n) => do
    say ("  " ++ toString (n + 1) ++ ". " ++ (← lift (line item)))

def sayNeighbours (operation title kind name project : String) (depth : Int) : Run Unit := do
  let found := (← ask? operation [.str name, .str project, .int depth]).getD (.arr [])
  if found.truthy then
    say (title ++ " '" ++ name ++ "' (depth " ++ toString depth ++ "):")
    sayNumbered (← lift found.walk) fun item => do
      return (← item.fieldOr "name" .null).shown ++ " in " ++
        (← item.fieldOr "file_path" (.str "Unknown")).shown
  else say ("No " ++ kind ++ " found for function '" ++ name ++ "' in project '" ++ project ++ "'")

def sayMissing (project : String) : Run Unit := do
  let found := (← ask? "find_missing_functions" [.str project]).getD (.arr [])
  if found.truthy then
    say ("Missing functions in project '" ++ project ++ "':")
    sayNumbered (← lift found.walk) fun item => .ok item.shown
  else say ("No missing functions found in project '" ++ project ++ "'")

def runQuery (args : Dict Json) : Run Unit := do
  if !(← get).database.connected then sayUnconnected
  else
    let name := textOf args "name"
    let project := textOf args "project"
    let depth := numberOf args "depth"
    match text? args "query_type" with
    | some "function" => sayFunction name project
    | some "callers" =>
      sayNeighbours "find_callers" "Functions that call" "callers" name project depth
    | some "callees" =>
      sayNeighbours "find_callees" "Functions called by" "callees" name project depth
    | some "missing" => sayMissing project
    | _ => say "Error: Invalid query type. Use 'function', 'callers', 'callees', or 'missing'."

def analysisMain (words : List String) : Run Unit := do
  connect
  let args ← commandLine analysisGrammar words
  match text? args "command" with
  | some "analyze" => runAnalyze args
  | some "search" => runSearch args
  | some "fix" => runFix args
  | some "index" => runIndex args
  | some "query" => runQuery args
  | _ => return

end CodeAtlas.Tool

import CodeAtlas.Diagram.Overview
import CodeAtlas.Diagram.Queries
import CodeAtlas.Text.Lowercase

/-!
# The overview program

Makes the overview diagrams of a project, one kind at a time.
-/

namespace CodeAtlas.Diagram

open Run Text CommandLine

def databaseAddress : String := "bolt://localhost:7688"

def pictureDir : String := "output"

def openDatabase : Run Unit := do
  info ("Connecting to Neo4j at " ++ databaseAddress)
  match ← attempt connect with
  | .ok _ => return
  | .error e =>
    err ("Failed to connect to Neo4j: " ++ e.message)
    throw e

def ensureConnection (connected : Bool) : Run Unit := if connected then return else openDatabase

/-- The overview of the functions of logging; answers the file of the picture. -/
def showLoggerFunctions (connected : Bool) (dir : String) : Run String := do
  let target := Path.join dir "logger_functions.png"
  ensureConnection connected
  publishFunctions (← loggerFunctions) target "Folly Logger Functions"
  return target

def showLoggerCalls (connected : Bool) (dir : String) (depth limit : Int) : Run String := do
  let target := Path.join dir "logger_callgraph.png"
  ensureConnection connected
  publishCalls ((← loggerCalls depth limit).getD []) target "Folly Logger Call Graph"
  return target

def callsFromSome (functions : List Row) (limit : Int)
    (calls : Row → Int → Run (Option (List Row))) : Run (List Row) := do
  let parts ← (functions.take 5).mapM fun f => do
    match ← calls f (limit.fdiv 5) with
    | some rows => return rows
    | none => throw (.notIterable .null)
  return parts.flatten

def showHashCalls (connected : Bool) (dir : String) (depth limit : Int) : Run String := do
  let target := Path.join dir "hash64_callgraph.png"
  ensureConnection connected
  let rows ← callsFromSome (← hashFunctions) limit fun f n => callsFrom f depth n none
  publishCalls rows target "Folly Hash64 Call Graph"
  return target

def showStartCalls (connected : Bool) (dir : String) (depth limit : Int) : Run String := do
  let target := Path.join dir "initimpl_callgraph.png"
  ensureConnection connected
  let rows ← callsFromSome (← startFunctions) limit fun f n => callsFrom f depth n none
  publishCalls rows target "Folly InitImpl Call Graph"
  return target

def componentTargets (connected : Bool) (dir : String) : Run (List String) := do
  let components ← keyComponents connected
  info ("Found " ++ toString components.length ++ " major components: " ++ join ", " components)
  return (components.take 5).map fun c => Path.join dir ("folly_" ++ lower c ++ "_callgraph.png")

def wholeTarget (dir : String) (focus : Option String) : String :=
  Path.join dir <|
    match focus with
    | none | some "" => "folly_callgraph.png"
    | some f => "folly_" ++ lower f ++ "_callgraph.png"

def showComponent (connected : Bool) (component : String) (depth limit : Int) (dir : String) :
    Run String := do
  let target := Path.join dir ("folly_" ++ lower component ++ "_component.png")
  ensureConnection connected
  publishCalls ((← componentCalls component depth limit).getD []) target
    ("Folly " ++ component ++ " Component")
  return target

def showMainCalls (connected : Bool) (depth limit : Int) (includeTests : Bool) (dir : String) :
    Run String := do
  let target := Path.join dir "folly_main_callgraph.png"
  ensureConnection connected
  let rows ← callsFromSome (← mainFunctions includeTests) limit fun f n => callsFromMain f depth n
  publishCalls rows target "Folly Main Call Graph"
  return target

def showFocus (connected : Bool) (focus : String) (limit : Int) (dir : String) : Run String := do
  let target := Path.join dir ("folly_" ++ lower focus ++ "_viewer.png")
  ensureConnection connected
  publishCalls ((← focusCalls focus limit).getD []) target ("Folly Call Graph - " ++ focus)
  return target

def overviewKinds : List String :=
  ["logger_functions", "logger_callgraph", "hash64_callgraph", "initimpl_callgraph",
   "folly_callgraph", "specific_component", "main_callgraph", "folly_graph_viewer"]

def overviewGrammar : CommandLine.Grammar :=
  simple
    [{ key := "type", names := ["--type"], choices := overviewKinds, required := true },
     number "depth" ["--depth"] (.int 2),
     number "limit" ["--limit"] (.int 150),
     option "focus" ["--focus"] .null,
     option "component" ["--component"] (.str "Future"),
     flag "include_tests" ["--include-tests"],
     flag "multiple" ["--multiple"],
     option "output_dir" ["--output-dir"] (.str pictureDir)]

def overviewMain (words : List String) : Run Unit := do
  let args ← commandLine overviewGrammar words
  let depth := numberOf args "depth"
  let limit := numberOf args "limit"
  let dir := textOf args "output_dir"
  let focus := text? args "focus"
  openDatabase
  match textOf args "type" with
  | "logger_functions" => let _ ← showLoggerFunctions true dir
  | "logger_callgraph" => let _ ← showLoggerCalls true dir depth limit
  | "hash64_callgraph" => let _ ← showHashCalls true dir depth limit
  | "initimpl_callgraph" => let _ ← showStartCalls true dir depth limit
  | "folly_callgraph" =>
    if isOn args "multiple" then let _ ← componentTargets true dir
  | "specific_component" =>
    let _ ← showComponent true (textOf args "component") depth limit dir
  | "main_callgraph" =>
    let _ ← showMainCalls true depth limit (isOn args "include_tests") dir
  | _ =>
    let focus := match focus with
      | none | some "" => "BufferedRandomDevice"
      | some f => f
    let _ ← showFocus true focus limit dir

end CodeAtlas.Diagram

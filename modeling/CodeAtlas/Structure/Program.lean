import CodeAtlas.Analysis.File
import CodeAtlas.Positions
import CodeAtlas.Structure.Report

/-!
# The structure program

Analyses the files of a directory and reports their structure. A drawing shows the functions
with the most relations as boxes and the calls between them as arrows.
-/

namespace CodeAtlas.Structure

open Run CommandLine

def drawn (maxNodes : Int) (fs : Functions) : List String :=
  let weight := fun (f : Function) => f.calledBy.length + f.calls.length
  let related := fs.filter fun (_, f) => 0 < weight f
  (Positions.upTo (related.mergeSort fun a b => weight b.2 ≤ weight a.2) maxNodes).map (·.1)

def boxLine (name : String) (f : Function) : String :=
  let file := if f.filePath.isEmpty then "unknown" else Path.baseName f.filePath
  "  \"" ++ name ++ "\" [label=\"" ++ name ++ "\\n(" ++ file ++ ")\"];"

def arrowLine (source target : String) : String := "  \"" ++ source ++ "\" -> \"" ++ target ++ "\";"

def arrows (fs : Functions) (names : List String) : List (String × String) :=
  let all := names.flatMap fun name =>
    (((fs.get? name).map Function.calls).getD []).filterMap fun called =>
      if names.contains called then some (name, called) else none
  let step := fun (state : List String × List (String × String)) (a : String × String) =>
    let mark := a.1 ++ "->" ++ a.2
    if state.1.contains mark then state else (mark :: state.1, a :: state.2)
  (all.foldl step ([], [])).2.reverse

def drawing (maxNodes : Int) (g : CallGraph) : String :=
  let names := drawn maxNodes g.functions
  Text.join "\n"
    (["digraph \"Call Graph\" \x7b",
      "  node [shape=box, style=filled, fillcolor=lightblue];",
      "  rankdir=LR;",
      "  concentrate=true;"] ++
     names.map (fun name => boxLine name ((g.functions.get? name).getD { name })) ++
     (arrows g.functions names).map (fun (a, b) => arrowLine a b) ++
     ["\x7d"])

/-! ### The command line -/

def structureGrammar : CommandLine.Grammar :=
  simple
    [needed "dir" ["--dir", "-d"],
     several "files" ["--files", "-f"],
     option "output" ["--output", "-o"] .null,
     option "dot" ["--dot"] .null]

/-- Analyses files one after the other and puts their graphs into the first one. Files that do not
exist are passed over. -/
def graphOfFiles (files : List String) : Run (Option CallGraph) :=
  files.foldlM (fun g file => do
    if !(← pathExists file) then
      warn ("File not found: " ++ file)
      return g
    else
      info ("Analyzing file: " ++ file)
      let part ← Analysis.analyze file none []
      match g with
      | none => return some part
      | some g => return some (CallGraph.mergeWith Function.joinCalls g part)) none

def graphOf (dir : String) (files : Option (List String)) : Run (Option CallGraph) := do
  match files with
  | some (file :: rest) =>
    info ("Analyzing " ++ toString (file :: rest).length ++ " files in " ++ dir)
    graphOfFiles (file :: rest)
  | _ =>
    info ("Analyzing entire directory: " ++ dir)
    let found := Analysis.sourceFiles (← tree) dir [".c", ".h"]
    info s!"Found {found.length} C files to analyze"
    graphOfFiles found

def withResult {α : Type} (result : Option α) (failure : String) (use : α → Run Unit) : Run Unit :=
  match result with
  | some a => use a
  | none => err failure

def writeResults (args : Dict Json) (g : Option CallGraph) (s : Option CodeStructure) :
    Run Unit := do
  match text? args "output" with
  | none | some "" => pure ()
  | some path =>
    withResult s "No results to export. Run analyze() first." fun s => do
      writeFile path (Json.render ⟨true, some 2⟩ (s.toJson .obj))
      info ("Results exported to " ++ path)
  match text? args "dot" with
  | none | some "" => pure ()
  | some path =>
    withResult g "No call graph to visualize. Run analyze() first." fun g => do
      writeFile path (drawing 100 g)
      info ("DOT file generated at " ++ path)

def structureMain (words : List String) : Run Int := do
  let args ← commandLine structureGrammar words
  let dir := textOf args "dir"
  let t ← tree
  if !t.isDir dir then
    err ("Directory not found: " ++ dir)
    return 1
  else
    let g ← graphOf dir (texts? args "files")
    let s := g.bind (CodeStructure.ofGraph? t.root dir)
    if s.isNone then err "Analysis failed or no functions found"
    withResult s "No results to print. Run analyze() first." CodeStructure.print
    writeResults args g s
    return 0

end CodeAtlas.Structure

import CodeAtlas.CompileCommands.Flags
import CodeAtlas.Tool.Index
import CodeAtlas.Workload.Sources

/-!
# Workloads on graphs and commands

Joining graphs, reading the flags of compile commands, and running the index tool.
-/

namespace CodeAtlas.Workload

open Run

def callingGraph (caller callee : String) (size : Nat) : CallGraph :=
  (numbered size fun i => ({ name := caller ++ i } : Function).addCall (callee ++ i)).foldl
    CallGraph.addFunction {}

def joinedGraphs (size : Nat) : Json :=
  let g := (callingGraph "a_" "b_" size).merge (callingGraph "b_" "a_" size)
  let g := { g with functions := crossReferences .full g.functions }
  .arr [count g.functions.length, count g.unresolved.length]

def compileCommand (i : String) : Json :=
  .obj [("directory", .str "/work"), ("file", .str ("f_" ++ i ++ ".cpp")),
    ("command", .str ("g++ -Iinclude -I inc -isystem/usr/include -isystem sys -DVAL" ++
      i ++ "=" ++ i ++
      " -D FLAG -std=c++17 -Wall -fPIC -m64 -c f_" ++ i ++ ".cpp"))]

def compilerOutput (size : Nat) : String :=
  Text.join "\n" (["#include <...> search starts here:"] ++
    (numbered (40 * size) fun i => " /usr/include/d_" ++ i) ++ ["End of search list."])

/-- Reading the flags of compile commands: include paths, flags, the flags of the first file,
macros, directories that the compiler lists, how many of them differ, and directories with
headers. -/
def flags (size : Nat) : Run Json :=
  let database := (Json.arr (numbered size compileCommand)).render ⟨true, none⟩
  let headers := numbered 3 fun i => ("include/h_" ++ i ++ ".h", "")
  withFiles (("compile_commands.json", database) :: headers) fun dir => do
    let path := Path.join dir "compile_commands.json"
    let includes ← CompileCommands.includePaths path
    let all ← CompileCommands.compilerArgs path none
    let first ← CompileCommands.compilerArgs path (some "f_0.cpp")
    let macros ← CompileCommands.macros path
    let listed := CompileCommands.pathsInOutput (compilerOutput size)
    return .arr [count includes.length, count all.length, .ofSet first,
      .arr ((Text.sorted macros.keys).map fun k => .ofStrings [k, (macros.get? k).getD ""]),
      count listed.length, count (Text.distinct listed).length,
      count (CompileCommands.headerDirs (← tree) dir).length]

def searches (size : Nat) : Run Json := do
  for _ in List.range size do
    Tool.indexMain ["search", "area", "--project", "p"]
  return count size

end CodeAtlas.Workload

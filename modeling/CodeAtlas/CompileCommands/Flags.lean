import CodeAtlas.CompileCommands.ShellWords
import CodeAtlas.Json.Parser
import CodeAtlas.Session

/-!
# Flags of a compilation database

A compilation database lists the commands that compile the files of a project. From it come the
include paths, the compiler flags and the macros; include paths can also be found by looking at
the directories of a project and at the compiler installed.
-/

namespace CodeAtlas.CompileCommands

open Run Text

def readDocument (path : String) : Run Json := do
  let text ← lift ((← tree).readText path)
  match Json.parse text with
  | .ok j => return j
  | .error e => throw (.badValue (e.message text))

/-- The words of a command. No command has no words; anything but a text is a fault. -/
def commandWords (command : Json) : Except Fault (List String) :=
  match command with
  | .str s => ShellWords.split s
  | .null => .ok []
  | _ => .error (.missingPart "object has no attribute 'read'")

def commandsOf (entries : List Json) : List (Json × Json) :=
  entries.filterMap fun e => (e.get? "command").map fun c => (e, c)

def fromDirectory (directory : Json) (path : String) : Except Fault String :=
  if Path.isAbsolute path then .ok path
  else
    match directory with
    | .str d => .ok (Path.normalize (Path.join d path))
    | _ => .error (.wrongShape "expected str, bytes or os.PathLike object")

def includePath? (word : String) : Option String :=
  if startsWith word "-I" then some (drop word 2)
  else if startsWith word "-isystem" then some (drop word 8)
  else none

def addIncludePaths (found : List String) (directory : Json) (words : List String) :
    List String × Option Fault :=
  (words.filterMap includePath?).foldl (fun (found, fault) path =>
    match fault with
    | some e => (found, some e)
    | none =>
      match fromDirectory directory path with
      | .ok p => (addNew found p, none)
      | .error e => (found, some e)) (found, none)

def collect {α : Type} (step : α → Json → List String → α × Option Fault) (start : α) :
    List (Json × Json) → α × Option Fault
  | [] => (start, none)
  | (entry, command) :: rest =>
    match commandWords command with
    | .error e => (start, some e)
    | .ok words =>
      match step start entry words with
      | (a, none) => collect step a rest
      | (a, some e) => (a, some e)

def report (what path : String) (fault : Option Fault) : Run Unit :=
  match fault with
  | some e => say ("Error extracting " ++ what ++ " from " ++ path ++ ": " ++ e.message)
  | none => return

/-- Reads the database and collects from its entries. What goes wrong is reported. A document that
is no list gives `start`, after `refuse`. -/
def collectFrom {α : Type} (what path : String) (start : α) (refuse : Run Unit)
    (keep : Json → Bool) (step : α → Json → List String → α × Option Fault) : Run α := do
  match ← attempt (readDocument path) with
  | .error e =>
    report what path (some e)
    return start
  | .ok (.arr entries) =>
    let (a, fault) := collect step start ((commandsOf entries).filter fun (e, _) => keep e)
    report what path fault
    return a
  | .ok _ =>
    refuse
    return start

def includePaths (path : String) : Run (List String) :=
  collectFrom "include paths" path []
    (say ("Warning: Invalid compile_commands.json format at " ++ path)) (fun _ => true)
    fun found entry words => addIncludePaths found (entry.getD "directory" (.str "")) words

def isCompiler (word : String) : Bool := endsWithAny word ["gcc", "g++", "clang", "clang++"]

def isFlag (word : String) : Bool :=
  startsWithAny word ["-I", "-isystem", "-D", "-std=", "-f", "-W", "-m"]

def flagsOf (words : List String) : List String :=
  words.tail.filter fun w => !isCompiler w && isFlag w

def compilerArgs (path : String) (file : Option String) : Run (List String) :=
  collectFrom "compiler args" path [] (pure ())
    (fun entry =>
      match file with
      | some f => f.isEmpty || entry.getD "file" .null == .str f
      | none => true)
    fun found _ words => (addAllNew found (flagsOf words), none)

def macroOf (definition : String) : String × String :=
  match split definition "=" with
  | name :: value :: more => (name, join "=" (value :: more))
  | _ => (definition, "1")

def macros (path : String) : Run (Dict String) :=
  collectFrom "macros" path [] (pure ()) (fun _ => true)
    fun found _ words =>
      ((words.filter (startsWith · "-D")).foldl (fun d w =>
        let (name, value) := macroOf (drop w 2)
        Dict.set d name value) found, none)

def headerSuffixes : List String := [".h", ".hpp", ".hxx", ".hh"]

def skippedDirs : List String := ["build", "out", "bin", "obj", "node_modules", ".git"]

def headerDirs (t : FileTree) (project : String) : List String :=
  (t.walkPruned (·.filter fun d => !startsWith d "." && !skippedDirs.contains d) project).filterMap
    fun s => if (s.files.filter (endsWithAny · headerSuffixes)).length ≥ 3 then some s.dir else none

def databasePlaces (project : String) : List String :=
  Path.join project "compile_commands.json" ::
    ["build", "out", ".vscode", "cmake-build-debug", "cmake-build-release"].map fun d =>
      Path.joinAll project [d, "compile_commands.json"]

def usualDirs : List String :=
  ["", "include", "inc", "src", "lib", "source", "third_party", "external", "deps", "vendor"]

/-- The include paths of a project: those of its databases or, if there are none, of its
directories; then those of the system. -/
def projectIncludePaths (project : String) (system : Run (List String)) : Run (List String) := do
  let paths ← (databasePlaces project).foldlM (fun acc place => do
    if ← pathExists place then
      let found ← includePaths place
      if !found.isEmpty then say ("Found include paths from " ++ place)
      return acc ++ found
    else return acc) []
  let t ← tree
  let paths :=
    if paths.isEmpty then
      (usualDirs.map (Path.join project)).filter t.isDir ++ headerDirs t project
    else paths
  return distinct (paths ++ (← system))

def pathsInOutput (output : String) : List String :=
  ((lines output).foldl (fun (inside, acc) line =>
    let line := strip line
    if line == "#include <...> search starts here:" then (true, acc)
    else if line == "End of search list." then (false, acc)
    else if inside && !line.isEmpty then (inside, acc ++ [line])
    else (inside, acc)) (false, ([] : List String))).2

def askCompiler (compiler : String) : Run (List String) := do
  call "check_output" (([compiler, "-xc++", "-E", "-v", "/dev/null"]).map Json.str)
  match (← machine).compilerOutput with
  | some output => return pathsInOutput output
  | none => return []

def newestInclude (dir : String) : Run (List String) := do
  if !(← pathExists dir) then return []
  let t ← tree
  if t.isFile dir then throw (.isFile dir)
  match (t.dirNames dir).getLast? with
  | none => return []
  | some version =>
    let path := Path.joinAll dir [version, "include"]
    return if ← pathExists path then [path] else []

def systemIncludePaths : Run (List String) := do
  let m ← machine
  match m.platform with
  | "Linux" =>
    let usual := ["/usr/include", "/usr/local/include"]
    call "run" [.str "which", .str "gcc"]
    if m.compilerSearch == some 0 then return usual ++ (← askCompiler "gcc") else return usual
  | "Darwin" =>
    let usual := ["/usr/include", "/usr/local/include",
      "/Library/Developer/CommandLineTools/usr/include/c++/v1"]
    return usual ++ (← askCompiler "clang++")
  | "Windows" =>
    let listed := ((m.environment.get? "INCLUDE").map (split · ":")).getD []
    let programs := (m.environment.get? "ProgramFiles").getD "C:\\Program Files"
    let dirs := ["2022", "2019", "2017"].map fun year =>
      Path.joinAll programs ["Microsoft Visual Studio", year, "Community", "VC", "Tools", "MSVC"]
    let found ← dirs.mapM newestInclude
    return listed ++ found.flatten
  | _ => return []

end CodeAtlas.CompileCommands

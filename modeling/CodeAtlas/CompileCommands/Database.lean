import CodeAtlas.CompileCommands.Flags
import CodeAtlas.Pattern.Parse

/-!
# Compilation databases

A loaded compilation database: the document that was read last, the entry of each file, and what
its command says.
-/

namespace CodeAtlas

open Text

structure CompilationDatabase where
  path : Option String := none
  commands : Json := .arr []
  entries : Dict Json := []

namespace CompilationDatabase

open Run

def addEntry (d : CompilationDatabase) (entry : Json) : Except Fault CompilationDatabase :=
  match entry with
  | .obj _ =>
    let file := entry.getD "file" .null
    if file.truthy then
      match file with
      | .str f => .ok { d with entries := Dict.set d.entries (Path.normalize f) entry }
      | _ => .error (.wrongShape "expected str, bytes or os.PathLike object")
    else .ok d
  | _ => .error (.missingPart "object has no attribute 'get'")

def addEntries (d : CompilationDatabase) : List Json → CompilationDatabase × Bool
  | [] => (d, true)
  | e :: rest =>
    match d.addEntry e with
    | .ok d => d.addEntries rest
    | .error _ => (d, false)

def itemsOf (j : Json) : Option (List Json) :=
  match j with
  | .arr l => some l
  | .obj fields => some (fields.map fun (k, _) => .str k)
  | .str s => some (s.toList.map fun c => .str (String.ofList [c]))
  | _ => none

def load (d : CompilationDatabase) (path : String) : Run (CompilationDatabase × Bool) := do
  match ← attempt (CompileCommands.readDocument path) with
  | .error _ => return (d, false)
  | .ok j =>
    let d := { d with commands := j }
    match itemsOf j with
    | some l => return d.addEntries l
    | none => return (d, false)

/-- The database at a path; empty if there is none. -/
def ofPath (path : Option String) : Run CompilationDatabase := do
  let d : CompilationDatabase := { path }
  match path with
  | some p => if !p.isEmpty && (← pathExists p) then return (← d.load p).1 else return d
  | none => return d

def upwards : Nat → String → List String
  | 0, dir => [dir]
  | n + 1, dir =>
    let parent := Path.dirName dir
    if parent == dir then [dir] else dir :: upwards n parent

def find? (start : String) : Run (Option String) := do
  let dir := (← tree).locate start
  let places := (upwards (size dir) dir).map (Path.join · "compile_commands.json") ++
    ["build", "Build", "BUILD", "out", "Out", "OUT"].map fun b =>
      Path.joinAll start [b, "compile_commands.json"]
  places.findM? pathExists

def command? (d : CompilationDatabase) (file : String) : Option Json :=
  d.entries.get? (Path.normalize file)

def includePattern : Pattern := .ofString "-I\\s*([^\\s]+)"

def systemPattern : Pattern := .ofString "-isystem\\s*([^\\s]+)"

def joinWords (j : Json) : Except Fault String := do
  match itemsOf j with
  | some l =>
    let words ← l.mapM fun
      | .str s => .ok s
      | _ => .error (Fault.wrongShape "sequence item: expected str instance")
    return join " " words
  | none => throw (.wrongShape "can only join an iterable")

/-- The command line of an entry: its command or, if that is empty, its words. -/
def commandLine (entry : Json) : Except Fault String := do
  let command := entry.getD "command" (.str "")
  match command.truthy, entry.get? "arguments" with
  | false, some words => joinWords words
  | _, _ =>
    match command with
    | .str s => return s
    | _ => throw (.wrongShape "expected string or bytes-like object")

def includePaths (d : CompilationDatabase) (file : String) : Except Fault (List String) := do
  match d.command? file with
  | none => return []
  | some entry =>
    let line ← commandLine entry
    let paths := ((includePattern.findAll line) ++ (systemPattern.findAll line)).map (·.group 1)
    paths.mapM (CompileCommands.fromDirectory (entry.getD "directory" (.str "")))

def wordsOf (entry : Json) : Except Fault (List Json) :=
  match entry.get? "arguments" with
  | some words =>
    match itemsOf words with
    | some l => .ok l
    | none => .error (.wrongShape "object is not iterable")
  | none =>
    match entry.getD "command" (.str "") with
    | .str s => .ok ((words s).map .str)
    | _ => .error (.missingPart "object has no attribute 'split'")

def keepOptions (file base : String) : Bool → List Json → Except Fault (List String)
  | _, [] => .ok []
  | true, _ :: rest => keepOptions file base false rest
  | false, .str w :: rest => do
    if w == file || endsWith w base then keepOptions file base false rest
    else if w == "-o" || w == "-c" then keepOptions file base true rest
    else if startsWith w "-o" || startsWith w "-c" then keepOptions file base false rest
    else return w :: (← keepOptions file base false rest)
  | false, _ :: _ => .error (.missingPart "object has no attribute 'endswith'")

def compilerOptions (d : CompilationDatabase) (file : String) : Except Fault (List String) := do
  match d.command? file with
  | none => return []
  | some entry => keepOptions file (Path.baseName file) false (← wordsOf entry).tail

def dropUnknown : List String → List String
  | [] => []
  | [w] =>
    if ["-fcolor-diagnostics", "-fdiagnostics-color", "-Werror", "-arch", "-target"].contains w
    then [] else [w]
  | w :: v :: rest =>
    if ["-fcolor-diagnostics", "-fdiagnostics-color", "-Werror"].contains w then
      dropUnknown (v :: rest)
    else if ["-arch", "-target"].contains w then dropUnknown rest
    else w :: dropUnknown (v :: rest)

def languageFlag (file : String) : List String :=
  if endsWithAny file [".cpp", ".cc", ".cxx"] then ["-xc++"]
  else if endsWith file ".c" then ["-xc"]
  else []

def frontEndArgs (d : CompilationDatabase) (file : String) : Except Fault (List String) := do
  return dropUnknown (← d.compilerOptions file) ++ languageFlag file

def directivePattern : Pattern := .ofString "#include\\s+[\"<]([^\">]+)[\">]"

def holder? (exists' : String → Bool) (names : List String) : Nat → String → Option String
  | 0, _ => none
  | n + 1, dir =>
    if exists' (Path.joinAll dir names) then some dir
    else
      let parent := Path.dirName dir
      if parent == Path.dirName parent then none else holder? exists' names n parent

def inferIncludePaths (exists' : String → Bool) (content base : String) : List String :=
  (directivePattern.findAll content).foldl (fun acc m =>
    if startsWith m.whole "#include \"" then
      let names := split (m.group 1) "/"
      match holder? exists' names names.length base with
      | some dir => addNew acc dir
      | none => acc
    else acc) []

def drivePattern : Pattern := .ofString "^([A-Za-z]):(.*)$"

/-- A normalized path; on Windows with slashes, and with the drive as a directory. -/
def normalizePath (platform path : String) : String :=
  let p := Path.normalize path
  if platform == "Windows" then
    let p := replace p "\\" "/"
    match drivePattern.matchStart? p with
    | some m => "/" ++ lower (m.group 1) ++ m.group 2
    | none => p
  else p

def entryFor (root directory compiler : String) (options : List String) (file : String) : Json :=
  let path := Path.absolute root file
  .obj [("directory", .str directory), ("file", .str path),
    ("arguments", .ofStrings ([compiler] ++ options ++ ["-c", Path.relative root path directory]))]

def entriesFor (root directory compiler : String) (options files : List String) : Json :=
  .arr (files.map (entryFor root directory compiler options))

def create (directory : String) (files : List String) (compiler : String) (options : List String) :
    Run Bool := do
  let entries := entriesFor (← tree).root directory compiler options files
  match ← attempt (writeFile (Path.join directory "compile_commands.json")
      (entries.render ⟨true, some 2⟩)) with
  | .ok _ => return true
  | .error _ => return false

end CompilationDatabase

end CodeAtlas

import CodeAtlas.Path
import CodeAtlas.Dict
import CodeAtlas.Fault
import CodeAtlas.Text.Utf8

/-!
# File trees

The files and directories below one working directory. Files are lists of bytes by normalized
absolute path. Nothing outside of the working directory exists.
-/

namespace CodeAtlas

open Text

structure FileTree where
  root : String
  files : Dict (List UInt8) := []
  /-- The directories below the working directory, and the working directory itself. -/
  dirs : List String := []
deriving Inhabited

namespace FileTree

def above (t : FileTree) (path : String) : List String :=
  let dir := Path.dirName path
  if startsWith dir (t.root ++ "/") then
    let names := Path.names (drop dir (size t.root))
    (List.range names.length).map fun n => t.root ++ "/" ++ join "/" (names.take (n + 1))
  else []

def empty (root : String) : FileTree := { root, dirs := [root] }

def locate (t : FileTree) (path : String) : String := Path.absolute t.root path

def withAbove (t : FileTree) (path : String) : FileTree :=
  { t with dirs := addAllNew t.dirs (t.above path) }

def addDir (t : FileTree) (path : String) : FileTree :=
  let p := t.locate path
  let t := t.withAbove p
  { t with dirs := addNew t.dirs p }

def addFile (t : FileTree) (path : String) (bytes : List UInt8) : FileTree :=
  let p := t.locate path
  let t := t.withAbove p
  { t with files := Dict.set t.files p bytes }

def isPassable (t : FileTree) (p : String) : Bool :=
  t.dirs.contains p || p == "/" || startsWith t.root (p ++ "/")

/-- Goes from a directory along names; every directory passed through must exist. -/
def follow? (t : FileTree) : String → List String → Option String
  | p, [] => some p
  | p, name :: rest =>
    if !t.isPassable p then none
    else if name == ".." then t.follow? (Path.dirName p) rest
    else t.follow? (if p == "/" then "/" ++ name else p ++ "/" ++ name) rest

/-- The place that a path leads to, if all directories on the way exist. -/
def reach? (t : FileTree) (path : String) : Option String :=
  if path.isEmpty then none
  else
    let names := (Path.names path).filter (· != ".")
    t.follow? (if Path.isAbsolute path then "/" else t.root) names

def isDir (t : FileTree) (path : String) : Bool :=
  match t.reach? path with
  | some p => t.dirs.contains p
  | none => false

def isFile (t : FileTree) (path : String) : Bool :=
  match t.reach? path with
  | some p => t.files.has p && !endsWith path "/" && !endsWith path "/."
  | none => false

def «exists» (t : FileTree) (path : String) : Bool := t.isFile path || t.isDir path

def readBytes (t : FileTree) (path : String) : Except Fault (List UInt8) :=
  if t.isFile path then .ok (((t.reach? path).bind t.files.get?).getD [])
  else if t.isDir path then .error (.isDirectory path)
  else if t.files.has (t.locate path) then .error (.isFile path)
  else .error (.noFile path)

def readText (t : FileTree) (path : String) : Except Fault String := do
  let (cs, bad) := decodeUtf8 (← t.readBytes path)
  if bad then throw (.notText path)
  return String.ofList (unifyLineEnds cs)

def readTextLoosely (t : FileTree) (path : String) : Except Fault String := do
  return String.ofList (unifyLineEnds (decodeUtf8 (← t.readBytes path)).1)

def writeText (t : FileTree) (path : String) (text : String) : Except Fault FileTree :=
  if t.isDir path then .error (.isDirectory path)
  else
    match t.reach? path with
    | some p =>
      if t.dirs.contains (Path.dirName p) then
        .ok { t with files := Dict.set t.files p (encodeUtf8 text) }
      else .error (.noFile path)
    | none =>
      if t.files.has (Path.dirName (t.locate path)) then .error (.isFile path)
      else .error (.noFile path)

def makeDirs (t : FileTree) (path : String) : Except Fault FileTree :=
  let p := t.locate path
  if path.isEmpty then .error (.noFile path)
  else if t.files.has p then .error (.fileExists path)
  else if (t.above p).any t.files.has then .error (.isFile path)
  else .ok (t.addDir path)

def fileNames (t : FileTree) (dir : String) : List String :=
  let d := t.locate dir
  sorted (t.files.keys.filterMap fun p =>
    if Path.dirName p == d then some (Path.baseName p) else none)

def dirNames (t : FileTree) (dir : String) : List String :=
  let d := t.locate dir
  sorted (t.dirs.filterMap fun p =>
    if p != t.root && Path.dirName p == d then some (Path.baseName p) else none)

def names (t : FileTree) (dir : String) : Except Fault (List String) :=
  if t.isDir dir then .ok (sorted (t.fileNames dir ++ t.dirNames dir))
  else if t.isFile dir then .error (.isFile dir)
  else .error (.noFile dir)

/-- One stop on a walk: a directory with the names of its directories and files. -/
structure Stop where
  dir : String
  dirs : List String
  files : List String
deriving Repr, DecidableEq

/-- The walk through a directory, from the top down, with a bound on the depth. Only the
directories that `enter` picks are entered. -/
def walkFrom (t : FileTree) (enter : List String → List String) : Nat → String → List Stop
  | 0, _ => []
  | depth + 1, dir =>
    if t.isDir dir then
      let dirs := enter (t.dirNames dir)
      ⟨dir, dirs, t.fileNames dir⟩ ::
        dirs.flatMap fun d => t.walkFrom enter depth (Path.join dir d)
    else []

/-- The walk through a directory, from the top down; files before directories, names in the order
of code points. -/
def walk (t : FileTree) (dir : String) : List Stop :=
  t.walkFrom id (t.dirs.length + 1) dir

def walkPruned (t : FileTree) (enter : List String → List String) (dir : String) : List Stop :=
  t.walkFrom enter (t.dirs.length + 1) dir

def filesBelow (t : FileTree) (dir : String) : List String :=
  (t.walk dir).flatMap fun s => s.files.map (Path.join s.dir)

end FileTree

end CodeAtlas

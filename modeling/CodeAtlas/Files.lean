import CodeAtlas.Session

/-!
# Working with files

Finding files by their endings, reading and writing them, making directories.
-/

namespace CodeAtlas.Files

open Run

def ensureDir (path : String) : Run Unit := do
  if !path.isEmpty && !(← pathExists path) then makeDirs path

def readContent (path : String) : Run String := do
  if !(← pathExists path) then throw (.absent ("File " ++ path ++ " not found"))
  lift ((← tree).readTextLoosely path)

def writeContent (path text : String) : Run Unit := do
  ensureDir (Path.dirName path)
  writeFile path text

def normalizePath (cwd path : String) : String :=
  if Path.isAbsolute path then Path.normalize path else Path.absolute cwd path

def findFiles (t : FileTree) (dir patterns : String) : Except Fault (List String) := do
  if !t.isDir dir then throw (.notDirectory ("Directory " ++ dir ++ " not found"))
  let endings := (Text.split patterns ",").map fun p => Text.replace p "*" ""
  return (t.walk dir).flatMap fun s =>
    (s.files.filter (Text.endsWithAny · endings)).map (Path.join s.dir)

def scan (t : FileTree) (dir : String) (endings : List String) : List String :=
  (t.filesBelow dir).filter (Text.endsWithAny · endings)

end CodeAtlas.Files

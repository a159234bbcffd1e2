import CodeAtlas.Description.Program
import CodeAtlas.Diagram.Program
import CodeAtlas.Finder.Program
import CodeAtlas.Search.Program
import CodeAtlas.Session.Document
import CodeAtlas.Structure.Program
import CodeAtlas.Tool.Analysis
import CodeAtlas.Tool.Index

/-!
# The command line

The first word selects a program, which gets the other words. The program runs in a session over
the files of the current directory; no service can be reached from here. What it printed is
printed, and the files that it wrote are written, when it has ended.
-/

namespace CodeAtlas.CommandLine

def programs : List (String × (List String → Run Unit)) :=
  [("index", Tool.indexMain), ("analysis", Tool.analysisMain), ("finder", Finder.finderMain),
   ("question", Search.questionMain), ("description", Description.descriptionMain),
   ("overview", Diagram.overviewMain), ("blocks", Embedding.blockMain),
   ("structure", fun words => do
     let status ← Structure.structureMain words
     if status != 0 then throw (.exit status))]

def readEntries : Nat → List IO.FS.DirEntry → FileTree → IO FileTree
  | 0, _, t => return t
  | depth + 1, entries, t => entries.foldlM (fun t e => do
      let path := e.path.toString
      if ← e.path.isDir then readEntries depth (← e.path.readDir).toList (t.addDir path)
      else return t.addFile path (← IO.FS.readBinFile e.path).toList) t

def writeTree (before after : FileTree) : IO Unit := do
  for (path, bytes) in after.files do
    if before.files.get? path != some bytes then
      IO.FS.createDirAll (Path.dirName path)
      IO.FS.writeBinFile path ⟨bytes.toArray⟩

def runProgram (program : Run Unit) : IO UInt32 := do
  let dir ← IO.currentDir
  let tree ← readEntries 32 (← dir.readDir).toList (FileTree.empty dir.toString)
  let (outcome, w) := program.run.run { tree, database := { refusal := some "no database" } }
  IO.print w.output
  writeTree tree w.tree
  match outcome with
  | .ok _ => return 0
  | .error (.exit status) => return status.toNat.toUInt32
  | .error e =>
    IO.eprintln e.message
    return 1

end CodeAtlas.CommandLine

def main (words : List String) : IO UInt32 :=
  match words with
  | name :: rest =>
    match CodeAtlas.CommandLine.programs.lookup name with
    | some program => CodeAtlas.CommandLine.runProgram (program rest)
    | none => do
      IO.eprintln ("unknown program: " ++ name)
      return 2
  | [] => do
    IO.eprintln ("programs: " ++ ", ".intercalate (CodeAtlas.CommandLine.programs.map (·.1)))
    return 2

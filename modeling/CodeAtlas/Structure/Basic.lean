import CodeAtlas.CallGraph
import CodeAtlas.Path

/-!
# The structure of a code base

Which functions stand in which file, which files depend on each other, which functions are used by
many others, and what lies outside of the code base.

The call tree of a function has below it the trees of the functions that it calls. A function that
stands above itself already, and one that is not known, has nothing below.
-/

namespace CodeAtlas.Structure

/-- The depth of the call tree of a function, at most `bound`, below functions already passed. -/
def callDepth (fs : Functions) : Nat → List String → String → Nat
  | 0, _, _ => 0
  | bound + 1, above, name =>
    if above.contains name then 0
    else
      match fs.get? name with
      | none => 0
      | some f =>
        f.calls.foldl (fun deepest called =>
          max deepest (callDepth fs bound (name :: above) called + 1)) 0

def callDepths (bound : Nat) (g : CallGraph) : Dict Nat :=
  g.functions.map fun (name, _) => (name, callDepth g.functions bound [] name)

/-- The lines of a call tree. A line is indented by its depth; below `limit` nothing is shown. -/
def treeLines (fs : Functions) (limit : Int) : Nat → Int → List String → String → List String
  | 0, _, _, _ => []
  | fuel + 1, depth, above, name =>
    match fs.get? name with
    | none => []
    | some f =>
      let indent := Text.join "" (List.replicate depth.toNat "  ")
      if depth > limit then []
      else if above.contains name then [indent ++ name ++ " (recursive call)"]
      else
        (indent ++ "└─ " ++ name ++ " (" ++ f.filePath ++ ":" ++ toString f.lineNumber ++ ")") ::
          f.calls.flatMap (treeLines fs limit fuel (depth + 1) (name :: above))

def treeText (g : CallGraph) (root : String) (limit depth : Int) : String :=
  -- no function stands above itself twice
  String.join ((treeLines g.functions limit (g.functions.length + 2) depth [] root).map (· ++ "\n"))

/-! ### Files and calls -/

/-- A call from one function to another one, with their files. -/
structure Call where
  caller : String
  callee : String
  callerFile : String
  calleeFile : String
deriving Repr, DecidableEq

structure CodeStructure where
  names : List String
  byFile : Dict (List String)
  /-- The files on which a file depends, in the order of code points. -/
  dependencies : Dict (List String)
  calls : List Call
  heavilyUsed : List (String × Function)
  depths : Dict Nat
  /-- What lies outside of the code base, in the order of code points. -/
  outside : List String
  /-- The functions that were not found, in the order of code points. -/
  missing : List String
deriving Repr

/-- A path as seen from a directory, if it starts like the directory. -/
def placeIn (cwd dir path : String) : String :=
  if !dir.isEmpty && Text.startsWith path dir then Path.relative cwd path dir else path

def functionsByFile (place : String → String) (fs : Functions) : Dict (List String) :=
  fs.foldl (fun d (name, f) =>
    if f.filePath.isEmpty then d else Dict.push d (place f.filePath) name) []

def filesUsedBy (fs : Functions) (f : Function) : List String :=
  f.calls.filterMap fun called =>
    match fs.get? called with
    | some g => if g.filePath.isEmpty || g.filePath == f.filePath then none else some g.filePath
    | none => none

def fileDependencies (place : String → String) (fs : Functions) : Dict (List String) :=
  let found := fs.foldl (fun d (_, f) =>
    if f.filePath.isEmpty then d
    else (filesUsedBy fs f).foldl (fun d file => Dict.push d (place f.filePath) (place file)) d) []
  found.map fun (file, used) => (file, Text.sortedSet used)

def allCalls (fs : Functions) : List Call :=
  fs.flatMap fun (name, f) => f.calls.map fun called =>
    { caller := name, callee := called, callerFile := f.filePath
      calleeFile := ((fs.get? called).map Function.filePath).getD "unknown" }

/-- The functions with at least `least` callers, the most called first. -/
def usedAtLeast (least : Nat) (fs : Functions) : List (String × Function) :=
  (fs.filter fun (_, f) => least ≤ f.calledBy.length).mergeSort fun a b =>
    b.2.calledBy.length ≤ a.2.calledBy.length

def libraryHeaders : Dict String :=
  [("printf", "stdio.h"), ("fprintf", "stdio.h"), ("sprintf", "stdio.h"),
   ("malloc", "stdlib.h"), ("free", "stdlib.h"), ("calloc", "stdlib.h"), ("realloc", "stdlib.h"),
   ("memcpy", "string.h"), ("strcpy", "string.h"), ("strcat", "string.h"), ("strcmp", "string.h"),
   ("socket", "sys/socket.h"), ("connect", "sys/socket.h"), ("bind", "sys/socket.h"),
   ("open", "fcntl.h"), ("read", "unistd.h"), ("write", "unistd.h"), ("close", "unistd.h"),
   ("pthread_create", "pthread.h"), ("pthread_join", "pthread.h"),
   ("SSL_new", "openssl/ssl.h"), ("SSL_connect", "openssl/ssl.h")]

/-- What lies outside: the missing functions that are called, each as its header if that is well
known. -/
def outsideOf (g : CallGraph) : List String :=
  Text.sortedSet (g.functions.flatMap fun (_, f) =>
    (f.calls.filter g.missing.contains).map fun called =>
      (libraryHeaders.get? called).getD called)

/-- The structure of a graph without functions is not worked out. -/
def CodeStructure.ofGraph? (cwd dir : String) (g : CallGraph) : Option CodeStructure :=
  let place := placeIn cwd dir
  if g.functions.isEmpty then none
  else some
    { names := g.functions.keys
      byFile := functionsByFile place g.functions
      dependencies := fileDependencies place g.functions
      calls := allCalls g.functions
      heavilyUsed := usedAtLeast 5 g.functions
      depths := callDepths 10 g
      outside := outsideOf g
      missing := Text.sorted g.missing }

end CodeAtlas.Structure

import CodeAtlas.Pattern.Parse
import CodeAtlas.Session

/-!
# Searching source files

Looks for the definitions, declarations and calls of functions by their text, and writes
placeholders for functions that were not found.
-/

namespace CodeAtlas.Search

open Run Text

def defaultFilePatterns : String := "*.c,*.cpp,*.h,*.hpp"

def filePattern (written : String) : Except Fault Pattern :=
  let p := "^" ++ replace (replace written "*" ".*") "." "\\." ++ "$"
  match Pattern.parse p with
  | .ok p => .ok p
  | .error e => .error (.pattern e.message)

def fitsPattern (name written : String) : Except Fault Bool := do
  return ((← filePattern written).matchStart? name).isSome

/-- A file name fits one of several written file patterns; those behind the first that fits are
not looked at. -/
def fitsOne (name : String) : List String → Except Fault Bool
  | [] => .ok false
  | p :: rest => do if ← fitsPattern name p then return true else fitsOne name rest

def usePattern (name : String) : Pattern :=
  .ofString ("(^|\\s|\\*|\\()(" ++ Pattern.escape name ++ ")\\s*\\(")

def useLines (name content : String) : List Nat :=
  let cs := content.toList
  ((usePattern name).findAll content).map fun m => (cs.take m.start).count '\n' + 1

abbrev Places := Dict (List String)

def searchContent (path content : String) (places : Places) : Places :=
  places.map fun (name, l) => (name, l ++ (useLines name content).map fun n => s!"{path}:{n}")

def searchFile (places : Places) (path : String) : Run Places := do
  match ← attempt (do lift ((← tree).readTextLoosely path)) with
  | .ok content => return searchContent path content places
  | .error e =>
    say ("Error searching file " ++ path ++ ": " ++ e.message)
    return places

def searchFunctions (names : List String) (path : String) (patterns : String) : Run Places := do
  if !(← pathExists path) then throw (.absent ("Path " ++ path ++ " not found"))
  let start : Places := (distinct names).map fun n => (n, [])
  let t ← tree
  if t.isFile path then searchFile start path
  else
    let written := split patterns ","
    (t.walk path).foldlM (fun places stop =>
      stop.files.foldlM (fun places file => do
        if ← lift (fitsOne file written) then searchFile places (Path.join stop.dir file)
        else return places) places) start

def stubHeader : String :=
  "/**\n * Auto-generated stubs for missing functions\n */\n\n#ifndef MISSING_FUNCTIONS_H\n" ++
    "#define MISSING_FUNCTIONS_H\n\n#ifdef __cplusplus\nextern \"C\" \x7b\n#endif\n\n"

def stubFooter : String :=
  "\n#ifdef __cplusplus\n\x7d\n#endif\n\n#endif /* MISSING_FUNCTIONS_H */\n"

def stub (name : String) : String :=
  "\n/**\n * Stub implementation for missing function: " ++ name ++ "\n */\nint " ++ name ++
    "(void) \x7b\n    // TODO: Implement this function\n    return 0;\n\x7d"

def stubs (names : List String) : String :=
  stubHeader ++ join "\n" (names.map stub) ++ stubFooter

end CodeAtlas.Search

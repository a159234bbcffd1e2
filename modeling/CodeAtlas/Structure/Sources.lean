import CodeAtlas.Pattern.Parse
import CodeAtlas.Session

/-!
# Call graphs from source text

A rough analysis that needs no front end: it finds definitions and calls by patterns. The body of
a function ends at the first closing brace.
-/

namespace CodeAtlas.Structure

open Run

/-- The patterns of definitions; the second group is the name: functions, then methods, where it is
the class, then methods without a type. -/
def definitionPatterns : List Pattern :=
  [.ofString "(\\w+(?:\\s*\\*)?)\\s+(\\w+)\\s*\\([^)]*\\)\\s*\x7b",
   .ofString "(\\w+(?:\\s*\\*)?)\\s+(\\w+)::\\w+\\s*\\([^)]*\\)\\s*\x7b",
   .ofString "(\\w+)::(\\w+)\\s*\\([^)]*\\)\\s*\x7b"]

def definedIn (path content : String) : Functions :=
  definitionPatterns.foldl (fun fs p =>
    (p.findAll content).foldl (fun fs m =>
      let name := m.group 2
      if fs.has name then fs
      else
        let line := Text.countChar (Text.take content m.start) '\n' + 1
        Dict.set fs name { name, filePath := path, lineNumber := line }) fs) []

def bodyOf? (content name : String) : Option String :=
  ((Pattern.ofStringWith { dotAll := true }
    (name ++ "\\s*\\([^)]*\\)\\s*\x7b(.*?)\x7d")).search? content).map (·.group 1)

def calledIn (body name : String) : Bool := (Pattern.ofString (name ++ "\\s*\\(")).foundIn body

def connect (content : String) (fs : Functions) (name : String) : Functions :=
  match bodyOf? content name with
  | none => fs
  | some body =>
    let called := fs.keys.filter fun other => other != name && calledIn body other
    let fs := Dict.adjust fs name fun f => { f with body, calls := addAllNew f.calls called }
    called.foldl (fun fs other => Dict.adjust fs other (·.addCaller name)) fs

def graphOfText (path content : String) : CallGraph :=
  let fs := definedIn path content
  { functions := fs.keys.foldl (connect content) fs }

/-- The graph of a source file, empty if there is none. -/
def graphOfSource (path : String) : Run CallGraph := do
  let t ← tree
  if !t.exists path then
    say ("File not found: " ++ path)
    return {}
  else return graphOfText path (← lift (t.readText path))

end CodeAtlas.Structure

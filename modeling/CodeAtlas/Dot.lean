import CodeAtlas.CallGraph
import CodeAtlas.Pattern.Parse

/-!
# Drawn graphs

Reads a call graph back from its drawing in the DOT language. The nodes drawn as boxes are
functions; a label shows the file and the line behind the name. An arrow is a call; its target is
missing if it is not drawn as a box.

A drawing is written as a box for each function, labelled with its place, and an arrow for each
call between names.
-/

namespace CodeAtlas.Dot

def nodePattern : Pattern := .ofString "\"([^\"]+)\"\\s*\\[([^\\]]+)\\]"

def labelPattern : Pattern := .ofString "label=\"([^\"]+)\""

def filePattern : Pattern := .ofString "\\\\n(.*?):"

def lineNumberPattern : Pattern := .ofString ":(\\\\n)?(\\d+)"

def arrowPattern : Pattern := .ofString "\"([^\"]+)\"\\s*->\\s*\"([^\"]+)\""

def place (attributes : String) : String × Nat :=
  match labelPattern.search? attributes with
  | none => ("", 0)
  | some m =>
    let label := m.group 1
    let file := ((filePattern.search? label).map (·.group 1)).getD ""
    let line := ((lineNumberPattern.search? label).map fun l => Text.digitsValue (l.group 2)).getD 0
    (file, line)

def nodes (text : String) : List Function :=
  (nodePattern.findAll text).filterMap fun m =>
    let attributes := m.group 2
    if Text.occursIn "shape=box" attributes then
      let (file, line) := place attributes
      some { name := m.group 1, filePath := file, lineNumber := line }
    else none

def arrows (text : String) : List (String × String) :=
  (arrowPattern.findAll text).map fun m => (m.group 1, m.group 2)

def addArrow (g : CallGraph) (arrow : String × String) : CallGraph :=
  let g := g.adjust arrow.1 (·.addCall arrow.2)
  if g.functions.has arrow.2 then g.adjust arrow.2 (·.addCaller arrow.1)
  else g.addMissing arrow.2

def parse (text : String) : CallGraph :=
  (arrows text).foldl addArrow ((nodes text).foldl CallGraph.addFunction {})

/-! ### Writing -/

structure Box where
  name : String
  file : String
  line : Nat
deriving Repr, DecidableEq

structure Drawing where
  boxes : List Box
  calls : List (String × String)
deriving Repr, DecidableEq

def Box.render (b : Box) : String :=
  "\"" ++ b.name ++ "\" [shape=box,label=\"" ++ b.name ++ "\\n" ++ b.file ++ ":" ++
    toString b.line ++ "\"]"

def renderCall (call : String × String) : String :=
  "\"" ++ call.1 ++ "\" -> \"" ++ call.2 ++ "\""

def Drawing.render (d : Drawing) : String :=
  Text.join "\n"
    (["digraph G \x7b"] ++ d.boxes.map Box.render ++ d.calls.map renderCall ++ ["\x7d"])

end CodeAtlas.Dot

import CodeAtlas.CallGraph
import CodeAtlas.Pattern.Parse

/-!
# Call outlines

An outline names one function a line. The functions that it calls stand below it, indented
deeper. A line may show the place of the definition in angle brackets and, behind it, remarks in
parentheses.

An outline is written as a tree of calls: a line for each function, the functions that it calls
below it, four blanks deeper.
-/

namespace CodeAtlas.Cflow

open Text

def linePattern : Pattern := .ofString "^(\\s*)(\\S.*?)(\\s+<.*>)?(\\s+\\(.*\\))?$"

def placePattern : Pattern := .ofString "<\\s*at\\s+(\\d+)\\s*>"

structure Entry where
  indent : Nat
  name : String
  /-- The line of its definition, zero if not said. -/
  line : Nat
deriving Repr, DecidableEq

def cleanName (name : String) : String :=
  if occursIn "(" name then strip ((split name "(").headD "") else name

def entry? (line : String) : Option Entry :=
  if (strip line).isEmpty then none
  else
    (linePattern.matchStart? line).map fun m =>
      let number := match m.group? 3 with
        | some place => ((placePattern.search? place).map fun p => digitsValue (p.group 1)).getD 0
        | none => 0
      { indent := size (m.group 1), name := cleanName (m.group 2), line := number }

structure Place where
  /-- The functions above the next line, the innermost first. -/
  above : List String := []
  /-- The indents opened, the innermost first. -/
  indents : List Int := [-1]
  indent : Int := -1
deriving Repr, DecidableEq

def Place.close (indent : Int) : List Int → List String → List Int × List String
  | [], above => ([], above)
  | i :: rest, above =>
    if indent ≤ i then Place.close indent rest above.tail else (i :: rest, above)

def Place.goTo (p : Place) (indent : Int) : Place :=
  if p.indent < indent then { p with indents := indent :: p.indents, indent := indent }
  else if indent < p.indent then
    let (indents, above) := Place.close indent p.indents p.above
    { above, indents, indent }
  else { p with above := p.above.tail, indent := indent }

/-- The graph after a line that names a function and stands below `parent`. -/
def addEntry (g : CallGraph) (file : String) (e : Entry) (parent : String) : CallGraph :=
  let f := match g.getFunction? e.name with
    | some f => { f with filePath := file, lineNumber := e.line }
    | none => { name := e.name, filePath := file, lineNumber := e.line }
  let f := if parent.isEmpty then f else f.addCaller parent
  let g := { g with functions := Dict.set g.functions e.name f }
  if parent.isEmpty then g else g.adjust parent (·.addCall e.name)

def step (file : String) (state : CallGraph × Place) (e : Entry) : CallGraph × Place :=
  let place := state.2.goTo e.indent
  let parent := place.above.headD ""
  (addEntry state.1 file e parent, { place with above := e.name :: place.above })

def parse (text : String) (file : String) : CallGraph :=
  (((lines text).filterMap entry?).foldl (step file) ({}, {})).1

/-! ### Writing -/

/-- A function at a line, and the calls that it makes. -/
inductive Outline where
  | node (name : String) (line : Nat) (calls : List Outline)
deriving Inhabited, Repr

def writeLine (depth : Nat) (name : String) (line : Nat) : String :=
  String.ofList (List.replicate (4 * depth) ' ') ++ name ++ "() <at " ++ toString line ++ ">"

mutual

def Outline.lines (depth : Nat) : Outline → List String
  | .node name line calls => writeLine depth name line :: Outline.linesOfAll (depth + 1) calls

def Outline.linesOfAll (depth : Nat) : List Outline → List String
  | [] => []
  | o :: rest => o.lines depth ++ Outline.linesOfAll depth rest

end

def render (outlines : List Outline) : String :=
  join "\n" (Outline.linesOfAll 0 outlines)

end CodeAtlas.Cflow

import CodeAtlas.Diagram.Relations

/-!
# Overview diagrams

Functions below their files, and call graphs coloured by scope. Functions of special interest
stand out.
-/

namespace CodeAtlas.Diagram

open Run Text

structure NodeStyle where
  isFile : Bool := false
  isSpecial : Bool := false
  group : Json := .str ""
  colour : String := plainColour
  shape : String := "ellipse"
  lineWidth : String := "1.0"

/-- An overview; an arrow carries the number of steps. -/
abbrev Overview := Digraph String NodeStyle Json

def overviewColours : List String := relationColours.take 10

def specialParts : List String :=
  ["Logger::", "LoggerDB", "Hash64", "hash64", "InitImpl", "initImpl", "init", "Init",
   "main", "Main"]

def isSpecial (name : String) : Bool := specialParts.any (occursIn · name)

/-- A name in which parts are looked for, which only texts allow. -/
def searchableName : Json → Except Fault String
  | .str s => .ok s
  | .arr _ => .error (.wrongShape "unhashable type: 'list'")
  | .obj _ => .error (.wrongShape "unhashable type: 'dict'")
  | j => .error (.wrongShape ("argument of type '" ++ j.kindName ++ "' is not iterable"))

def functionStyle (colour? : Option String) (s : NodeStyle) : NodeStyle :=
  if s.isSpecial then { s with colour := "#ff5555", shape := "box", lineWidth := "2.0" }
  else { s with colour := colour?.getD plainColour, shape := "ellipse", lineWidth := "1.0" }

def fileLabel (path : String) : String :=
  let parts := split path "/"
  "FILE: " ++ join "/" (parts.drop (parts.length - 2))

def groupByFile (rows : List Row) : Except Fault (List (Json × List Row)) :=
  rows.foldlM (fun groups row => do
    let file := field row "file_path" (.str "")
    file.checkKey
    if groups.any (·.1 == file) then
      return groups.map fun (f, l) => if f == file then (f, l ++ [row]) else (f, l)
    else return groups ++ [(file, [row])]) []

def addFunction (file : Json) (fileNode : String) (g : Overview) (row : Row) :
    Except Fault Overview := do
  let name := field row "name" (.str "")
  if !name.truthy then return g
  let name ← searchableName name
  let g := g.addNode name fun s =>
    { s.getD {} with isFile := false, isSpecial := isSpecial name, group := file }
  return g.addArrow fileNode name (.int 1)

def addFile (g : Overview) (index : Nat) (file : Json) (rows : List Row) :
    Except Fault Overview := do
  let path ← file.textFor "split"
  let colour := overviewColours.getD (index % overviewColours.length) plainColour
  let node := fileLabel path
  let g := g.addNode node fun s =>
    { s.getD {} with isFile := true, colour, shape := "box", lineWidth := "2.0" }
  rows.foldlM (addFunction file node) g

def functionOverview (rows : List Row) : Except Fault Overview := do
  let groups ← groupByFile rows
  let g ← (groups.zip (List.range groups.length)).foldlM (fun g ((file, rows), index) =>
    addFile g index file rows) ({} : Overview)
  let colours := (groups.zip (List.range groups.length)).map fun ((file, _), index) =>
    (file, overviewColours.getD (index % overviewColours.length) plainColour)
  return g.mapNodes fun s =>
    if s.isFile then s
    else functionStyle ((colours.find? (·.1 == s.group)).map (·.2)) s

def addCallNode (g : Overview) (name scope : Json) : Except Fault (Overview × String) := do
  let s ← searchableName name
  if g.has s then return (g, s)
  return (g.addNode s fun _ => { isSpecial := isSpecial s, group := scope }, s)

def scopeOrFile (row : Row) (side : String) : Json :=
  field row (side ++ "_namespace") (field row (side ++ "_path") (.str ""))

def addCall (state : Overview × ScopeColours) (row : Row) :
    Except Fault (Overview × ScopeColours) := do
  let (g, colours) := state
  let caller := field row "caller" (.str "")
  let callee := field row "callee" (.str "")
  if caller == callee then return state
  let callerScope := scopeOrFile row "caller"
  let calleeScope := scopeOrFile row "callee"
  let (g, source) ← addCallNode g caller callerScope
  let (g, target) ← addCallNode g callee calleeScope
  let g := g.addArrow source target (field row "path_length" (.int 1))
  let colours ← giveColour overviewColours colours callerScope
  return (g, ← giveColour overviewColours colours calleeScope)

def callOverview (rows : List Row) : Except Fault Overview := do
  let (g, colours) ← rows.foldlM addCall ({}, [])
  let nodes ← g.nodes.mapM fun (name, s) => do
    if s.isSpecial then return (name, functionStyle none s)
    return (name, functionStyle (← colourOf? colours s.group) s)
  return { g with nodes }

/-- The label of a node; names of functions of more than 40 characters are shortened. -/
def nodeLabel (isFile : Bool) (name : String) : String :=
  if !isFile && 40 < size name then
    let parts := split name "::"
    if 2 < parts.length then join "::" (parts.drop (parts.length - 2))
    else drop name (size name - 40)
  else name

def overviewNode (name : String) (s : NodeStyle) : String :=
  let name := quoteSafe name
  "  \"" ++ name ++ "\" [label=\"" ++ nodeLabel s.isFile name ++ "\", fillcolor=\"" ++ s.colour ++
    "\", shape=" ++ s.shape ++ ", penwidth=" ++ s.lineWidth ++ "];\n"

def stepsWidth : Json → Except Fault String
  | .int n => .ok (if 1 < n then Decimal.renderFixed (2.0 / Float.ofInt n) 1 else "1.0")
  | .float x => .ok (if 1.0 < x then Decimal.renderFixed (2.0 / x) 1 else "1.0")
  | .bool _ => .ok "1.0"
  | j =>
    .error (.wrongShape ("'>' not supported between instances of '" ++ j.kindName ++ "' and 'int'"))

/-- The line of an arrow; those that leave files are thin and dashed. -/
def overviewArrow (g : Overview) (r : Arrow String Json) : Except Fault String := do
  let fromFile := ((g.attributes? r.source).map (·.isFile)).getD false
  let style ←
    if fromFile then pure "style=dashed, penwidth=0.5"
    else do pure ("style=solid, penwidth=" ++ (← stepsWidth r.attributes))
  return "  \"" ++ quoteSafe r.source ++ "\" -> \"" ++ quoteSafe r.target ++ "\" [" ++
    style ++ "];\n"

def overviewDrawing (g : Overview) (title direction : String) : Except Fault String := do
  let arrows ← g.arrowsByNode.mapM (overviewArrow g)
  return "digraph \"" ++ title ++ "\" \x7b\n  rankdir=" ++ direction ++
    ";\n  node [style=filled, fontname=\"Arial\"];\n  edge [fontname=\"Arial\"];\n" ++
    "  labelloc=\"t\";\n  label=\"" ++ title ++ "\";\n" ++
    String.join (g.nodes.map fun (name, s) => overviewNode name s) ++ String.join arrows ++ "\x7d\n"

def functionDrawing? (rows : List Row) (title : String) : Except Fault (Option String) := do
  if rows.isEmpty then return none
  return some (← overviewDrawing (← functionOverview rows) title "TB")

def callDrawing? (rows : List Row) (title : String) : Except Fault (Option String) := do
  if rows.isEmpty then return none
  return some (← overviewDrawing (← callOverview rows) title "LR")

/-- Has a drawing made into a picture, and into a scalable one if that works. -/
def publish (text target : String) : Run Unit := do
  let outcome ← attempt do
    makeDirs (Path.parent target)
    draw { kind := "-Tpng", text, target }
    if ← pathExists target then
      info ("Generated PNG visualization at: " ++ target)
      let scalable := replace target ".png" ".svg"
      draw { kind := "-Tsvg", text, target := scalable }
      info ("Generated SVG visualization at: " ++ scalable)
    else err "PNG file was not created. Graphviz command did not report an error."
  match outcome with
  | .ok _ => return
  | .error (.commandFailed message note) =>
    err ("Error running Graphviz: " ++ message)
    err ("Stderr: " ++ note.getD "None")
  | .error e => err ("Error converting DOT to PNG: " ++ e.message)

def publishFunctions (rows : List Row) (target title : String) : Run Unit := do
  match ← lift (functionDrawing? rows title) with
  | some text => publish text target
  | none => warn "No functions to visualize"

def publishCalls (rows : List Row) (target title : String) : Run Unit := do
  match ← lift (callDrawing? rows title) with
  | some text => publish text target
  | none => warn "No relationships to visualize"

end CodeAtlas.Diagram

import CodeAtlas.Session

/-!
# Diagrams of relations

Functions and the relations between them, as the database tells them, become a drawing in which
the functions of one scope share a colour. Long names are shortened for display: long template
arguments to an ellipsis, long chains of scopes to their last two parts, and what is still too long
to its beginning.

The graph of the relations is built by a library of directed graphs, which is a parameter
(`GraphLibrary`). `Digraph.library` is one that keeps nodes and arrows in the order in which they
first arrived.
-/

namespace CodeAtlas

structure Arrow (α ε : Type) where
  source : α
  target : α
  attributes : ε
deriving Repr

def Arrow.joins {α ε : Type} [BEq α] (r : Arrow α ε) (a b : α) : Bool :=
  r.source == a && r.target == b

/-- A directed graph: nodes of type `α` with attributes `ν`, arrows with attributes `ε`. -/
structure Digraph (α ν ε : Type) where
  nodes : List (α × ν) := []
  arrows : List (Arrow α ε) := []

namespace Digraph

variable {α ν ε : Type} [BEq α] (g : Digraph α ν ε)

def has (a : α) : Bool := g.nodes.any (·.1 == a)

def attributes? (a : α) : Option ν := (g.nodes.find? (·.1 == a)).map (·.2)

def changeNode (a : α) (change : ν → ν) : Digraph α ν ε :=
  { g with nodes := g.nodes.map fun (b, v) => if b == a then (b, change v) else (b, v) }

/-- Adds a node; `change` makes its attributes from those it had, if any. -/
def addNode (a : α) (change : Option ν → ν) : Digraph α ν ε :=
  if g.has a then g.changeNode a (change ∘ some)
  else { g with nodes := g.nodes ++ [(a, change none)] }

def addArrow (a b : α) (e : ε) : Digraph α ν ε :=
  if g.arrows.any (·.joins a b) then
    { g with arrows := g.arrows.map fun r => if r.joins a b then { r with attributes := e } else r }
  else { g with arrows := g.arrows ++ [⟨a, b, e⟩] }

def mapNodes {μ : Type} (f : ν → μ) : Digraph α μ ε :=
  { nodes := g.nodes.map fun (a, v) => (a, f v), arrows := g.arrows }

/-- The arrows in the order of the nodes that they leave. -/
def arrowsByNode : List (Arrow α ε) :=
  let position := fun (r : Arrow α ε) => g.nodes.findIdx (·.1 == r.source)
  g.arrows.mergeSort fun r s => position r ≤ position s

end Digraph

/-- What the diagrams of relations ask of a library of directed graphs. -/
structure GraphLibrary (ν ε : Type) where
  Graph : Type
  empty : Graph
  has : Graph → Json → Bool
  addNode : Graph → Json → ν → Graph
  changeNode : Graph → Json → (ν → ν) → Graph
  addArrow : Graph → Json → Json → ε → Graph
  nodes : Graph → List (Json × ν)
  arrows : Graph → List (Arrow Json ε)

def Digraph.library (ν ε : Type) : GraphLibrary ν ε where
  Graph := Digraph Json ν ε
  empty := {}
  has := has
  addNode g a v := g.addNode a fun _ => v
  changeNode := changeNode
  addArrow := addArrow
  nodes := nodes
  arrows := arrowsByNode

namespace Diagram

open Run Text

/-- The name with template arguments of more than 20 characters left out. -/
def trimArguments (name : String) : String :=
  match find? "<" name, findLast? ">" name with
  | some start, some stop =>
    if 0 < start && start < stop && 20 < stop + 1 - start then
      take name start ++ "<...>" ++ drop name (stop + 1)
    else name
  | _, _ => name

/-- The name with a chain of more than three parts cut to the last two. -/
def trimScopes (name : String) : String :=
  let parts := split name "::"
  if 3 < parts.length then join "::" ("..." :: parts.drop (parts.length - 2)) else name

def trimLength (name : String) : String :=
  if 40 < size name then take name 37 ++ "..." else name

def shortName (name : String) : String := trimLength (trimScopes (trimArguments name))

def quoteSafe (name : String) : String := replace name "\"" "\\\""

/-- What the database is asked for. -/
structure RelationQuery where
  project : String
  depth : Int := 2
  limit : Int := 1000
  focus : Option String := none
  withTemplates : Bool := true
  withVirtuals : Bool := true
deriving Repr

namespace RelationQuery

def focusClause (q : RelationQuery) (a b : String) : String :=
  match q.focus with
  | some f =>
    if f.isEmpty then ""
    else "AND (" ++ a ++ ".name CONTAINS '" ++ f ++ "' OR " ++ b ++ ".name CONTAINS '" ++ f ++ "')"
  | none => ""

def templateClause (q : RelationQuery) (a b : String) : String :=
  if q.withTemplates then ""
  else "AND NOT " ++ a ++ ".name CONTAINS '<' AND NOT " ++ b ++ ".name CONTAINS '<'"

def kinds (q : RelationQuery) : String :=
  if q.withVirtuals then ":CALLS|:OVERRIDES|:SPECIALIZES" else ":CALLS"

def direct (q : RelationQuery) : String :=
  block 12
    ["MATCH (caller:Function)-[r" ++ q.kinds ++ "]->(callee:Function)",
     "WHERE caller.project = '" ++ q.project ++ "' ",
     "AND callee.project = '" ++ q.project ++ "'",
     q.focusClause "caller" "callee",
     q.templateClause "caller" "callee",
     "RETURN caller.name as caller, callee.name as callee,",
     "       caller.namespace as caller_namespace, callee.namespace as callee_namespace,",
     "       type(r) as relationship_type",
     "LIMIT " ++ toString q.limit]

def paths (q : RelationQuery) : String :=
  block 12
    ["MATCH path = shortestPath((startNode:Function)-[r" ++ q.kinds ++ "*1.." ++
       toString q.depth ++ "]->(endNode:Function))",
     "WHERE startNode.project = '" ++ q.project ++ "'",
     "AND endNode.project = '" ++ q.project ++ "'",
     q.focusClause "startNode" "endNode",
     q.templateClause "startNode" "endNode",
     "RETURN startNode.name as caller, endNode.name as callee,",
     "       startNode.namespace as caller_namespace, endNode.namespace as callee_namespace,",
     "       type(last(relationships(path))) as relationship_type",
     "LIMIT " ++ toString q.limit]

def text (q : RelationQuery) : String := if q.depth == 1 then q.direct else q.paths

end RelationQuery

/-- The relations that the database knows; none if it fails. -/
def fetchRelations (q : RelationQuery) : Run (Option (List Row)) :=
  orElse (query? q.text []) fun _ => return some []

def field (row : Row) (key : String) (default : Json) : Json := (Dict.get? row key).getD default

def checkNode : Json → Except Fault Unit
  | .null => .error (.badValue "None cannot be a node")
  | j => j.checkKey

/-- The attributes of a node: its scope and, if colours are wanted, its colour. -/
structure RelationNode where
  scope : Json
  colour : Option String := none

/-- A library for graphs of relations; an arrow carries the kind of its relation. -/
abbrev RelationLibrary := GraphLibrary RelationNode Json

def relationColours : List String :=
  ["#66c2a5", "#fc8d62", "#8da0cb", "#e78ac3", "#a6d854",
   "#ffd92f", "#e5c494", "#b3b3b3", "#8dd3c7", "#bebada",
   "#fb8072", "#80b1d3", "#fdb462", "#b3de69", "#fccde5"]

def plainColour : String := "#cccccc"

abbrev ScopeColours := List (Json × String)

/-- Gives a scope the next colour, unless it is empty or has one. -/
def giveColour (palette : List String) (colours : ScopeColours) (scope : Json) :
    Except Fault ScopeColours := do
  if scope.truthy then
    scope.checkKey
    if colours.any (·.1 == scope) then return colours
    return colours ++ [(scope, palette.getD (colours.length % palette.length) plainColour)]
  else return colours

def colourOf? (colours : ScopeColours) (scope : Json) : Except Fault (Option String) := do
  scope.checkKey
  return (colours.find? (·.1 == scope)).map (·.2)

section

variable (L : RelationLibrary)

def addOnce (g : L.Graph) (name scope : Json) : Except Fault L.Graph := do
  if L.has g name then return g
  checkNode name
  return L.addNode g name { scope }

/-- Adds a relation. A function does not call itself unless it is marked as recursive. -/
def addRelation (coloured : Bool) (state : L.Graph × ScopeColours) (row : Row) :
    Except Fault (L.Graph × ScopeColours) := do
  let (g, colours) := state
  let caller := field row "caller" (.str "")
  let callee := field row "callee" (.str "")
  let callerScope := field row "caller_namespace" (.str "")
  let calleeScope := field row "callee_namespace" (.str "")
  if caller == callee then
    if !endsWith (← caller.textFor "endswith") "(recursive)" then return state
  let g ← addOnce L g caller callerScope
  let g ← addOnce L g callee calleeScope
  let g := L.addArrow g caller callee (field row "relationship_type" (.str "CALLS"))
  if coloured then
    let colours ← giveColour relationColours colours callerScope
    return (g, ← giveColour relationColours colours calleeScope)
  else return (g, colours)

def colourNode (colours : ScopeColours) (g : L.Graph) (node : Json × RelationNode) :
    Except Fault L.Graph := do
  let colour ← colourOf? colours node.2.scope
  return L.changeNode g node.1 ({ · with colour := some (colour.getD plainColour) })

def relationGraph (coloured : Bool) (rows : List Row) : Except Fault L.Graph := do
  let (g, colours) ← rows.foldlM (addRelation L coloured) (L.empty, [])
  if coloured then (L.nodes g).foldlM (colourNode L colours) g else return g

end

def nodeLine (name : Json) (node : RelationNode) : Except Fault String := do
  let name := quoteSafe (← name.textFor "replace")
  return "  \"" ++ name ++ "\" [label=\"" ++ shortName name ++ "\", fillcolor=\"" ++
    node.colour.getD plainColour ++ "\"];\n"

def arrowStyle (kind : Json) : String :=
  if kind == .str "OVERRIDES" then "style=dashed, color=blue"
  else if kind == .str "SPECIALIZES" then "style=dotted, color=green"
  else "style=solid, color=black"

def arrowLine (r : Arrow Json Json) : Except Fault String := do
  let source := quoteSafe (← r.source.textFor "replace")
  let target := quoteSafe (← r.target.textFor "replace")
  return "  \"" ++ source ++ "\" -> \"" ++ target ++ "\" [" ++ arrowStyle r.attributes ++ "];\n"

def relationDrawing (L : RelationLibrary) (g : L.Graph) : Except Fault String := do
  let nodes ← (L.nodes g).mapM fun (name, node) => nodeLine name node
  let arrows ← (L.arrows g).mapM arrowLine
  return "digraph G \x7b\n  rankdir=LR;\n  node [style=filled, fontname=\"Arial\"];\n" ++
    "  edge [fontname=\"Arial\"];\n" ++ String.join nodes ++ String.join arrows ++ "\x7d\n"

/-- Has a drawing made into a picture: the file of the picture, if it was made. -/
def makePicture? (source text target : String) : Run (Option String) :=
  orElse (do
    makeDirs (Path.parent target)
    draw { kind := "-Tpng", source, text, target }
    return if ← pathExists target then some target else none) fun _ => return none

/-- The drawing of the relations that the database knows, if there are any. -/
def relationDiagram? (q : RelationQuery) (coloured : Bool) : Run (Option String) := do
  match ← fetchRelations q with
  | none | some [] => return none
  | some rows =>
    let graph ← lift (relationGraph (Digraph.library ..) coloured rows)
    return some (← lift (relationDrawing _ graph))

end Diagram

end CodeAtlas

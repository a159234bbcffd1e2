import CodeAtlas.Extraction.Substitution
import CodeAtlas.Fault

/-!
# Concepts

The concepts and constraints of a template, recognized among the tokens of the children of its
node. A constraint on a parameter is looked for with a pattern that is written with the name of
the parameter; a name that makes it no pattern is a fault.
-/

namespace CodeAtlas.Extraction

open Text

def conceptPatterns : List Pattern :=
  ["requires\\s*\\([^\\)]+\\)", "requires\\s+[A-Za-z0-9_]+<[^>]*>",
   "template\\s*<[^>]*>\\s*requires",
   "concept\\s+[A-Za-z0-9_]+\\s*=", "std::[A-Za-z0-9_]+<",
   "[A-Za-z0-9_]+\\s*<[^>]*>\\s*[A-Za-z0-9_]+",
   "std::same_as<", "std::convertible_to<", "std::integral<", "std::floating_point<",
   "std::copyable<", "std::movable<", "std::equality_comparable<", "std::totally_ordered<",
   "std::invocable<", "std::predicate<"].map Pattern.ofString

/-- The tokens of a clause from the one behind `requires` on: up to a closing brace without a
partner or up to a semicolon outside of braces. -/
def requiresClause : Int → List String → List String
  | _, [] => []
  | level, t :: rest =>
    if t == "\x7b" then t :: requiresClause (level + 1) rest
    else if t == "\x7d" then
      if level - 1 < 0 then [] else t :: requiresClause (level - 1) rest
    else if t == ";" && level == 0 then [t]
    else t :: requiresClause level rest

/-- The tokens of a concept definition: from the first `concept` that is not the last token, up to
a semicolon or an opening brace. -/
def conceptDefinition (tokens : List String) : List String :=
  go false tokens
where
  go : Bool → List String → List String
    | _, [] => []
    | inside, t :: rest =>
      if t == "concept" && !rest.isEmpty then t :: go true rest
      else if inside then
        if t == ";" || t == "\x7b" then [t] else t :: go true rest
      else go false rest

/-- The stretches found by a pattern: those of its group if it has one. More than one group gives
no stretches. -/
def stretches (p : Pattern) (text : String) : Except Fault (List String) :=
  let matches' := p.findAll text
  match p.groupCount with
  | 0 => .ok (matches'.map (·.whole))
  | 1 => .ok (matches'.map (·.group 1))
  | _ =>
    if matches'.isEmpty then .ok []
    else .error (.missingPart "'tuple' object has no attribute 'strip'")

def require (f : Function) (requirement : String) : Function :=
  { f with isConcept := true }.addConceptRequirement requirement

def noteParameter (tokenText : String) (f : Function) (c : Ast) : Except Fault Function := do
  if c.kind != .typeParameter then return f
  match c.info.tokens with
  | first :: second :: _ =>
    if !(["typename", "class"].contains first) then
      let shown := c.info.text
      if occursIn "<" shown && occursIn ">" shown then return require f (strip shown)
      else return require f (strip (first ++ " " ++ second))
  | _ => pure ()
  if occursIn "requires" tokenText && !c.info.tokens.isEmpty then
    let name := c.info.tokens.getLastD ""
    let written := "requires\\s+[A-Za-z0-9_]+<\\s*" ++ name ++ "\\s*>"
    match Pattern.parse written with
    | .error e => throw (.pattern e.message)
    | .ok p =>
      if p.foundIn tokenText then
        let found ← stretches p tokenText
        return found.foldl (fun f s => f.addConceptRequirement (strip s))
          { f with isConcept := true }
  return f

def detectConcepts (a : Ast) (f : Function) : Except Fault Function := do
  let tokens := a.children.flatMap (·.info.tokens)
  let text := join " " tokens
  let f :=
    if tokens.contains "requires" then
      let f := { f with isConcept := true }
      let clause := requiresClause 0 ((tokens.dropWhile (· != "requires")).tail)
      if clause.isEmpty then f
      else f.addConstraintExpression (strip (join " " clause))
    else f
  let f := conceptPatterns.foldl (fun f p =>
    match p.findAll text with
    | [] => f
    | found =>
      found.foldl (fun f m => if m.whole.isEmpty then f else f.addConceptRequirement m.whole)
        { f with isConcept := true }) f
  let f ← a.children.foldlM (noteParameter text) f
  let definition := conceptDefinition tokens
  if definition.isEmpty then return f
  let f := require f (strip (join " " definition))
  if definition.length > 1 then
    return { f with isMetafunction := true, metafunctionKind := "concept_definition" }
  return f

end CodeAtlas.Extraction

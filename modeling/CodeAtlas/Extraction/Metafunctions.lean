import CodeAtlas.Ast
import CodeAtlas.Function.Basic
import CodeAtlas.Pattern.Parse

/-!
# Metafunctions

Templates that compute a type or a value at compile time, recognized by their members and by
patterns in their text.
-/

namespace CodeAtlas.Extraction

open Text

def metafunctionPatterns : List (String × List Pattern) :=
  [("type_trait",
    ["struct\\s+is_", "class\\s+is_", "::type", "::value_type", "std::enable_if",
     "typename\\s+enable_if", "std::conditional", "std::remove_", "::type_t",
     "std::declval"].map Pattern.ofString),
   ("value_trait",
    ["::value", "static\\s+constexpr", "v>", "_v<", "value\\s*=", "std::integral_constant",
     "constexpr\\s+bool", "static\\s+const"].map Pattern.ofString),
   ("transform",
    ["using\\s+type\\s*=", "typedef", "std::remove_", "std::add_", "::type::", "::template",
     "rebind", "_t<"].map Pattern.ofString)]

structure MemberSigns where
  value : Bool := false
  constant : Bool := false
  type : Bool := false
  transform : Bool := false
deriving Repr, DecidableEq

def MemberSigns.add (s : MemberSigns) (c : Ast) : MemberSigns :=
  let tokens := c.info.tokens
  let text := c.info.text
  match c.kind with
  | .field =>
    if c.info.name == "value" then
      { s with
        value := true
        constant := s.constant || (tokens.contains "static" && tokens.contains "constexpr") }
    else s
  | .typeDef =>
    if c.info.name == "type" then
      { s with type := true, transform := s.transform || tokens.any (occursIn "::" ·) }
    else s
  | .typeRef =>
    { s with transform := s.transform || (tokens.contains "typename" && occursIn "::type" text) ||
        (occursIn "<" text && occursIn ">" text) }
  | _ => s

def setKind (f : Function) (kind : String) : Function :=
  if f.metafunctionKind.isEmpty then { f with metafunctionKind := kind } else f

def kindsInText (text : String) : List String :=
  metafunctionPatterns.filterMap fun (kind, patterns) =>
    if patterns.any (·.foundIn text) then some kind else none

def kindOfMembers (s : MemberSigns) : String :=
  if s.value && !s.type then "value_trait"
  else if s.type && !s.value then "type_trait"
  else if s.transform then "transform"
  else "mixed_trait"

def detectMetafunction (a : Ast) (f : Function) : Function :=
  let text := a.info.text
  let signs := a.children.foldl MemberSigns.add {}
  let f := if signs.constant then { f with metafunctionKind := "value_trait" } else f
  let f :=
    if occursIn "true_type" text || occursIn "false_type" text then
      f.addSfinaeTechnique "tag_dispatch"
    else f
  let kinds := kindsInText text
  let f := kinds.foldl setKind f
  let standard := occursIn "std::type_traits" text || occursIn "std::is_" text
  let f := if standard then setKind f "type_trait" else f
  let f :=
    if signs.value || signs.type || signs.transform || !kinds.isEmpty || standard then
      setKind { f with isMetafunction := true } (kindOfMembers signs)
    else f
  if !f.isMetafunction && f.isTemplate && !f.templateParams.isEmpty && occursIn "std::" text &&
      occursIn "<" text && occursIn ">" text then
    { f with isMetafunction := true, metafunctionKind := "function_meta" }
  else f

end CodeAtlas.Extraction

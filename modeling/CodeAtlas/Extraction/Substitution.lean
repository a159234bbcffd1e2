import CodeAtlas.Ast
import CodeAtlas.Function.Basic
import CodeAtlas.Pattern.Parse

/-!
# Substitution failure

The techniques by which a template selects its uses through substitution failure, recognized by
patterns in the texts of the children of its node.
-/

namespace CodeAtlas.Extraction

open Text

def sfinaePatterns : List (String × List Pattern) :=
  [("enable_if",
    ["enable_if(?:_t)?(<|<.*?>)", "std::enable_if(?:_t)?", "typename\\s+std::enable_if(?:_t)?",
     "::enable_if(?:_t)?", "::type\\s*=\\s*void", "Enable[Ii]f"].map Pattern.ofString),
   ("void_t",
    ["void_t(<|<.*?>)", "std::void_t", "typename\\s+std::void_t", "::void_t"].map Pattern.ofString),
   ("decltype",
    ["decltype\\s*\\(|\\)\\s*->", "decltype\\([^)]+\\)", "->\\s*decltype", "std::declval",
     "sizeof\\(decltype"].map Pattern.ofString),
   ("is_detected",
    ["is_detected(?:_v|_t)?(<|<.*?>)", "std::is_detected",
     "std::experimental::is_detected"].map Pattern.ofString),
   ("detection_idiom",
    ["detected(?:_t|_or)?(<|<.*?>)", "std::detected(?:_t|_or)?",
     "std::experimental::detected"].map Pattern.ofString),
   ("substitution_failure",
    ["sizeof\\([^)]*\\)\\s*==\\s*sizeof\\(", "sizeof\\s*\\.\\.\\.\\s*\\(",
     "decltype\\(sizeof"].map Pattern.ofString),
   ("expression_sfinae",
    ["decltype\\((?:[^()]*\\([^()]*\\))*[^()]*\\)", "decltype\\(std::declval",
     "noexcept\\(decltype"].map Pattern.ofString),
   ("tag_dispatch",
    ["(?:true|false)_type", "std::(?:true|false)_type", "typename\\s+std::conditional",
     "::type>\\s*::\\s*type"].map Pattern.ofString),
   ("if_constexpr", ["if\\s+constexpr", "if\\s+constexpr\\s*\\("].map Pattern.ofString),
   ("constexpr_if", ["if\\s+constexpr", "else\\s+if\\s+constexpr"].map Pattern.ofString),
   ("std_conditional",
    ["std::conditional[_t]?(<|<.*?>)", "conditional[_t]?<",
      "std::conditional_t"].map Pattern.ofString),
   ("requires_clause",
    ["requires\\s*\\(", "requires\\s+[A-Za-z0-9_]+", "requires\\s*\\\x7b",
     "template\\s*<[^>]*>\\s*requires"].map Pattern.ofString),
   ("concepts",
    ["concept\\s+[A-Za-z0-9_]+\\s*=", "template\\s*<[^>]*concept", "std::same_as<",
     "std::convertible_to<"].map Pattern.ofString)]

/-- Checks for a member by means of `void_t`. -/
def memberCheckPatterns : List Pattern :=
  ["void_t<[^>]*::type", "void_t<[^>]*::value_type", "void_t<[^>]*::iterator",
   "void_t<decltype\\([^)]*\\)>"].map Pattern.ofString

/-- Checks for a method or an operator by means of `declval`. -/
def methodCheckPatterns : List Pattern :=
  ["decltype\\(declval<[^>]*>\\(\\)\\.([A-Za-z0-9_]+)",
   "decltype\\(declval<[^>]*>\\(\\)\\[[^\\]]*\\]",
   "decltype\\(declval<[^>]*>\\(\\)\\s*\\+\\s*",
   "decltype\\(declval<[^>]*>\\(\\)\\([^)]*\\)\\)"].map Pattern.ofString

def childTokenText (children : List Ast) : String :=
  join " " (children.flatMap (·.info.tokens))

def childText (children : List Ast) : String :=
  String.join (children.map (·.info.text ++ " "))

def techniquesInTexts (s t : String) : List String :=
  sfinaePatterns.filterMap fun (technique, patterns) =>
    if patterns.any fun p => p.foundIn s || p.foundIn t then some technique else none

def addTechniqueIf (b : Bool) (technique : String) (f : Function) : Function :=
  if b then f.addSfinaeTechnique technique else f

def detectSfinae (a : Ast) (f : Function) : Function :=
  let f :=
    if f.isTemplate && occursIn "enable_if" a.info.displayName then
      { f with hasSfinae := true }.addSfinaeTechnique "enable_if"
    else f
  let tokens := childTokenText a.children
  let text := childText a.children
  let has := fun p => occursIn p tokens
  let f := (techniquesInTexts tokens text).foldl Function.addSfinaeTechnique f
  let f := addTechniqueIf (has "disable_if" || has "DisableIf") "disable_if" f
  let f := addTechniqueIf
    (has "->" && (has "typename" || has "decltype" || (has "std::" && has "<")))
      "return_type_sfinae" f
  let f :=
    if memberCheckPatterns.any (·.foundIn text) then
      (f.addSfinaeTechnique "void_t").addSfinaeTechnique "member_detection"
    else f
  let f :=
    if occursIn "declval" text && occursIn "decltype" text then
      addTechniqueIf (methodCheckPatterns.any (·.foundIn text)) "method_detection"
        (f.addSfinaeTechnique "expression_sfinae")
    else f
  let f := addTechniqueIf (has "if constexpr") "if_constexpr" f
  let f := addTechniqueIf
    (has "static_assert" && (has "is_same" || has "is_convertible")) "static_assertions" f
  if f.sfinaeTechniques.isEmpty then f else { f with hasSfinae := true }

end CodeAtlas.Extraction

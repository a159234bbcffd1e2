import CodeAtlas.Dict
import CodeAtlas.Json.Basic
import CodeAtlas.Text.Lowercase

/-!
# Features named in a question

The language of a question and the features of templates that it names.
-/

namespace CodeAtlas.Search

open Text

def isChinese (c : Char) : Bool := 0x4e00 ≤ c.toNat && c.toNat ≤ 0x9fff

def detectLanguage (question : String) : String :=
  if question.toList.any isChinese then "zh" else "en"

inductive FeatureTerm where
  | feature (name : String)
  | technique (name : String)
  /-- A kind of metafunction, found by a closer look at the question. -/
  | kind
deriving Repr, DecidableEq

def featureTerms : List (String × FeatureTerm) :=
  [("variadic template", .feature "has_variadic_templates"),
   ("parameter pack", .feature "has_variadic_templates"),
   ("template parameter pack", .feature "has_variadic_templates"),
   ("variadic", .feature "has_variadic_templates"),
   ("sfinae", .feature "has_sfinae"),
   ("substitution failure", .feature "has_sfinae"),
   ("enable_if", .technique "enable_if"),
   ("enable if", .technique "enable_if"),
   ("void_t", .technique "void_t"),
   ("decltype", .technique "decltype"),
   ("detection idiom", .technique "detection idiom"),
   ("tag dispatch", .technique "tag dispatch"),
   ("type trait", .kind),
   ("metafunction", .feature "is_metafunction"),
   ("trait", .feature "is_metafunction"),
   ("meta function", .feature "is_metafunction"),
   ("value trait", .kind),
   ("transform trait", .kind),
   ("concept", .feature "is_concept"),
   ("requires", .feature "is_concept"),
   ("constraint", .feature "is_concept"),
   ("template template", .feature "has_template_template_params"),
   ("partial specialization", .feature "partial_specialization"),
   ("template specialization", .feature "is_template")]

def kindNamed? (question : String) : Option String :=
  if occursIn "value trait" question then some "value_trait"
  else if occursIn "type trait" question then some "type_trait"
  else if occursIn "transform" question then some "transform"
  else none

def addTerm (question : String) (features : Dict Json) : FeatureTerm → Dict Json
  | .feature name => Dict.set features name (.bool true)
  | .technique name =>
    Dict.set (Dict.set features "has_sfinae" (.bool true)) "sfinae_technique" (.str name)
  | .kind =>
    match kindNamed? question with
    | some kind =>
      Dict.set (Dict.set features "is_metafunction" (.bool true)) "metafunction_kind" (.str kind)
    | none => features

def detectFeatures (question : String) : Dict Json :=
  let q := lower question
  featureTerms.foldl (fun features (term, meaning) =>
    if occursIn term q then addTerm q features meaning else features) []

end CodeAtlas.Search

import CodeAtlas.Pattern.Parse
import CodeAtlas.Search.Vocabulary
import CodeAtlas.Session

/-!
# Searching the database

Functions by a description in natural language, by the features of templates, and by their
neighbours in the call graph.

A question in natural language becomes a list of words to look for: in lower case, without words
that carry no meaning, and in the usual form. Chinese questions are cut into words by a segmenter
if one is installed.
-/

namespace CodeAtlas.Search

open Run Text

def blankOut (chars : String) (s : String) : String :=
  let cs := chars.toList
  s.map fun c => if cs.contains c then ' ' else c

def englishMarks : String := ",.!?;:\"'()[]\x7b\x7d"

def chineseMarks : String := "，。！？；：'（）【】《》"

def meaningful (stopWords words : List String) : List String :=
  words.filter fun w => !(strip w).isEmpty && !stopWords.contains w

def englishWords (question : String) : List String :=
  (meaningful englishStopWords (words (blankOut englishMarks (lower question)))).map
    (translate synonyms)

def segmentedWords (pieces : List String) : List String :=
  (meaningful chineseStopWords pieces).map (translate chineseTerms)

def unsegmentedWords (question : String) : List String :=
  words (blankOut chineseMarks (lower question))

def questionWords (question language : String) : Run (List String) := do
  if language == "zh" then
    match (← get).segments with
    | some pieces =>
      call "jieba.cut" [.str (lower question)]
      return segmentedWords pieces
    | none =>
      say "Warning: jieba package not found. Using basic character splitting for Chinese."
      return unsegmentedWords question
  else return englishWords question

/-! ### Queries -/

def keywordCondition (keyword : String) : String :=
  let fits := " =~ '(?i).*" ++ Pattern.escape keyword ++ ".*'"
  "f.name" ++ fits ++ " OR f.signature" ++ fits ++ " OR f.namespace" ++ fits ++
    " OR exists(tc.content) AND tc.content" ++ fits

def descriptionQuery (keywords : List String) : String :=
  block 12
    ["MATCH (f:Function \x7bproject: $project\x7d)",
     "OPTIONAL MATCH (f)-[:HAS_CONTENT]->(tc:TextContent)",
     "WHERE " ++ join " OR " (keywords.map keywordCondition),
     "RETURN DISTINCT f, tc.content as body",
     "LIMIT $limit"]

def functionOfRow (row : Row) : Run Row := do
  let f ← lift (← Row.column row "f").record
  let body ← Row.column row "body"
  return if body.truthy then Dict.set f "body" body else f

structure Score where
  points : Nat := 0
  matched : List String := []
deriving Repr, DecidableEq

def scoreField (f : Row) (keyword field : String) (weight : Nat) (s : Score) : Except Fault Score :=
  let value := (Dict.get? f field).getD .null
  if value.truthy then do
    if occursIn keyword (lower (← value.textFor "lower")) then
      return { points := s.points + weight, matched := addNew s.matched keyword }
    else return s
  else .ok s

def scoreKeyword (f : Row) (s : Score) (keyword : String) : Except Fault Score := do
  let name ← match Dict.get? f "name" with
    | some j => j.textFor "lower"
    | none => throw (.missingKey "name")
  let s : Score :=
    if occursIn keyword (lower name) then
      { points := s.points + 10, matched := s.matched ++ [keyword] }
    else s
  let s ← scoreField f keyword "signature" 5 s
  let s ← scoreField f keyword "namespace" 3 s
  scoreField f keyword "body" 2 s

def scored (keywords : List String) (f : Row) : Except Fault Row := do
  let s ← keywords.foldlM (scoreKeyword f) {}
  return Dict.set (Dict.set f "relevance" (.int s.points)) "matched_tokens" (.ofStrings s.matched)

def relevance (f : Row) : Int := ((Dict.get? f "relevance").bind Json.int?).getD 0

/-- The first items of a list; a negative number counts from the end. -/
def firstOf {α : Type} (l : List α) (limit : Int) : List α :=
  if limit < 0 then l.take (l.length - limit.natAbs) else l.take limit.toNat

def searchByDescription (description project : String) (limit : Int) (language : String) :
    Run (List Row) := do
  let keywords ← questionWords description language
  if keywords.isEmpty then return []
  let rows ← query (descriptionQuery keywords) [("project", .str project), ("limit", .int limit)]
  let functions ← rows.mapM functionOfRow
  let ranked ← functions.mapM fun f => lift (scored keywords f)
  return firstOf (ranked.mergeSort fun a b => relevance a ≥ relevance b) limit

def propertyFeatures : List String :=
  ["has_variadic_templates", "is_metafunction", "has_sfinae", "is_concept",
   "partial_specialization",
   "metafunction_kind", "variadic_template_param", "primary_template"]

def featureQuery (project : String) (features : Dict Json) : String × Dict Json :=
  let conditions := propertyFeatures.filter features.has
  let lines := ["MATCH (f:Function \x7bproject: $project\x7d)"] ++
    (if features.has "sfinae_technique" then
      ["MATCH (f)-[:HAS_SFINAE_TECHNIQUES]->(t:SfaineTechnique \x7bvalue: $sfinae_technique\x7d)"]
    else []) ++
    (if ((features.get? "has_template_template_params").getD .null).truthy then
      ["MATCH (f)-[:HAS_TEMPLATE_TEMPLATE_PARAMS]->(p)"] else []) ++
    (if features.has "template_param" then
      ["MATCH (f)-[:HAS_TEMPLATE_PARAMS]->(p:TemplateParams \x7bvalue: $template_param\x7d)"]
    else []) ++
    (if conditions.isEmpty then []
      else ["WHERE " ++ join " AND " (conditions.map fun c => "f." ++ c ++ " = $" ++ c)]) ++
    ["RETURN DISTINCT f"]
  let named := (propertyFeatures ++ ["sfinae_technique", "template_param"]).filterMap fun k =>
    (features.get? k).map fun v => (k, v)
  (join "\n" lines, ("project", .str project) :: named)

def listQuery (relation : String) : String :=
  block 8
    ["MATCH (f:Function \x7bname: $name, project: $project\x7d)-[:HAS_" ++ relation ++ "]->(p)",
     "RETURN p.value as value"]

def withList (project : String) (f : Row) (field relation : String) : Run Row := do
  let name ← Row.column f "name"
  let rows ← query (listQuery relation) [("name", name), ("project", .str project)]
  let values ← rows.mapM (Row.column · "value")
  return if values.isEmpty then f else Dict.set f field (.arr values)

def hasFeature (f : Row) (key : String) : Bool := ((Dict.get? f key).getD (.bool false)).truthy

def withLists (project : String) (f : Row) : Run Row := do
  let f ← withList project f "template_params" "TEMPLATE_PARAMS"
  let f ←
    if hasFeature f "has_variadic_templates" then
      withList project f "template_template_params" "TEMPLATE_TEMPLATE_PARAMS"
    else pure f
  let f ←
    if hasFeature f "is_concept" then do
      let f ← withList project f "concept_requirements" "CONCEPT_REQUIREMENTS"
      withList project f "constraint_expressions" "CONSTRAINT_EXPRESSIONS"
    else pure f
  if hasFeature f "has_sfinae" then withList project f "sfinae_techniques" "SFINAE_TECHNIQUES"
  else return f

def findByFeatures (project : String) (features : Dict Json) : Run (List Row) := do
  let (text, params) := featureQuery project features
  let rows ← query text params
  let functions ← rows.mapM fun row => do lift (← Row.column row "f").record
  functions.mapM (withLists project)

def neighbours (operation function project : String) (depth : Json) : Run (List Json) := do
  let found := (← ask? operation [.str function, .str project, depth]).getD (.arr [])
  (← lift found.walk).mapM fun item => lift (item.fieldOr "name" (.str ""))

def callers (function project : String) (depth : Json) : Run (List Json) :=
  neighbours "find_callers" function project depth

def callees (function project : String) (depth : Json) : Run (List Json) :=
  neighbours "find_callees" function project depth

end CodeAtlas.Search

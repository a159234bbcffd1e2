import CodeAtlas.Search.Database
import CodeAtlas.Search.Features

/-!
# Showing found functions

Each function is shown under a number, with the lines that its fields call for.
-/

namespace CodeAtlas.Search

open Run

def shows (f : Row) (key : String) : Bool := ((Dict.get? f key).getD .null).truthy

def sayField (f : Row) (title key : String) : Run Unit := do
  if shows f key then say ("   " ++ title ++ ": " ++ ((Dict.get? f key).getD .null).shown)

def sayList (f : Row) (title key : String) : Run Unit := do
  match Dict.get? f key with
  | some j => say ("   " ++ title ++ ": " ++ (← lift (j.joinTexts ", ")))
  | none => return

def sayYes (title : String) : Run Unit := say ("   " ++ title ++ ": Yes")

def sayHead (n : Nat) (f : Row) : Run Unit := do
  say ("\n" ++ toString n ++ ". " ++ (← Row.column f "name").shown)
  sayField f "File" "file_path"
  sayField f "Line" "line_number"

def sayFeatures (f : Row) : Run Unit := do
  if shows f "is_template" then
    sayYes "Template"
    sayList f "Template Parameters" "template_params"
  if shows f "has_variadic_templates" then
    sayYes "Variadic Template"
    sayField f "Parameter Pack" "variadic_template_param"
  if shows f "is_metafunction" then
    sayYes "Metafunction"
    sayField f "Metafunction Kind" "metafunction_kind"
  if shows f "has_sfinae" then
    sayYes "SFINAE"
    sayList f "SFINAE Techniques" "sfinae_techniques"
  if shows f "is_concept" then
    sayYes "Concept"
    sayList f "Concept Requirements" "concept_requirements"

def sayDetails (withTemplate : Bool) (f : Row) : Run Unit := do
  sayField f "Signature" "signature"
  if withTemplate && shows f "is_template" then sayYes "Template"
  if shows f "is_virtual" then sayYes "Virtual"
  sayField f "Class" "class_name"
  sayField f "Namespace" "namespace"
  match Dict.get? f "relevance" with
  | some j => say ("   Relevance score: " ++ (← lift (j.fixedText 2)))
  | none => pure ()
  sayList f "Matched terms" "matched_tokens"

def sayFound (question : String) (found : List Row) (details : Row → Run Unit) : Run Unit := do
  if found.isEmpty then say ("No functions found matching '" ++ question ++ "'")
  else
    say ("Found " ++ toString found.length ++ " matching functions:")
    (found.zip (List.range found.length)).forM fun (f, n) => do
      sayHead (n + 1) f
      details f

def chosenLanguage (choice question : String) : Run String := do
  if choice != "auto" then return choice
  else
    let language := detectLanguage question
    say (if language == "zh" then "Detected Chinese query" else "Detected English query")
    return language

end CodeAtlas.Search

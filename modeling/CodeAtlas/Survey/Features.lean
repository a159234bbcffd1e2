import CodeAtlas.Analysis.File
import CodeAtlas.FrontEnd.Start

/-!
# A check of template features

Analyses two sample files and checks that each feature of templates is found often enough.
-/

namespace CodeAtlas.Survey

open Run

structure TemplateFeature where
  name : String
  heading : String
  title : String
  holds : Function → Bool
  least : Option Nat := none
  details : Function → List String := fun _ => []

def detail (title text : String) : List String :=
  if text.isEmpty then [] else ["     " ++ title ++ ": " ++ text]

def templateFeatures : List TemplateFeature :=
  [{ name := "templates", heading := "Templates", title := "Templates"
     holds := Function.isTemplate, least := some 10 },
   { name := "metafunctions", heading := "Metafunctions", title := "Metafunctions"
     holds := Function.isMetafunction, least := some 5
     details := fun f => detail "Metafunction kind" f.metafunctionKind },
   { name := "sfinae", heading := "Sfinae", title := "SFINAE functions"
     holds := Function.hasSfinae, least := some 3
     details := fun f => detail "SFINAE techniques" (Text.join ", " f.sfinaeTechniques) },
   { name := "variadic_templates", heading := "Variadic_Templates", title := "Variadic templates"
     holds := Function.hasVariadic, least := some 1 },
   { name := "template_template_params", heading := "Template_Template_Params"
     title := "Template template parameters", holds := fun f => !f.templateTemplateParams.isEmpty },
   { name := "partial_specialization", heading := "Partial_Specialization"
     title := "Partial specializations", holds := Function.partialSpecialization, least := some 1 },
   { name := "concepts", heading := "Concepts", title := "Concept-enabled functions"
     holds := Function.isConcept }]

def sampleFiles : List String :=
  ["test_scripts/template_metaprogramming_test.cpp", "test_files/template_test.cpp"]

def sampleFunctions (path : String) : Run (List Function) := do
  if !(← pathExists path) then
    say ("WARNING: Test file " ++ path ++ " not found. Skipping.")
    return []
  else
    say ("\nAnalyzing file: " ++ path)
    let fs := (← Analysis.analyze path none []).functions.values
    templateFeatures.forM fun t => say ("  " ++ t.title ++ ": " ++ toString (fs.countP t.holds))
    return fs

def checkFeature (fs : List Function) (t : TemplateFeature) : Run Bool := do
  match t.least with
  | none => return true
  | some least =>
    let found := fs.countP t.holds
    say ((if least ≤ found then "✅ PASS" else "❌ FAIL") ++ " - " ++ t.name ++
      ": Expected at least " ++
      toString least ++ ", found " ++ toString found)
    return least ≤ found

def showExamples (fs : List Function) (t : TemplateFeature) : Run Unit := do
  match fs.filter t.holds with
  | [] => return
  | found =>
    say ("\n" ++ t.heading ++ " Examples:")
    (found.zip (List.range 3)).forM fun (f, n) => do
      say ("  " ++ toString (n + 1) ++ ". " ++ f.name)
      (detail "Signature" f.signature ++ t.details f).forM say

def featureCheck : Run Bool := do
  say "\n=== Template Metaprogramming Features Validation ===\n"
  say "Configuring libclang..."
  discard FrontEnd.configure
  say "Initializing analyzer..."
  let fs := (← sampleFiles.mapM sampleFunctions).flatten
  say "\n=== Validation Results ==="
  let passed ← templateFeatures.mapM (checkFeature fs)
  say "\n=== Feature Examples ==="
  templateFeatures.forM (showExamples fs)
  say "\n=== Overall Status ==="
  let all := passed.all id
  say (if all then "✅ All template metaprogramming features validated successfully!"
    else "❌ Some template metaprogramming features failed validation.")
  return all

end CodeAtlas.Survey

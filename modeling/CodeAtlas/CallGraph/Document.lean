import CodeAtlas.CallGraph
import CodeAtlas.Fault
import CodeAtlas.Json.Access

/-!
# Functions and call graphs as documents

The document of a function has its name and each field that differs from its default.
-/

namespace CodeAtlas

open Text

namespace Function

def setField (f : Function) (key : String) (v : Json) : Except Fault Function :=
  match key with
  | "name" => .ok { f with name := v.text }
  | "signature" => .ok { f with signature := v.text }
  | "file_path" => .ok { f with filePath := v.text }
  | "body" => .ok { f with body := v.text }
  | "line_number" => .ok { f with lineNumber := v.whole }
  | "calls" => .ok { f with calls := v.texts }
  | "called_by" => .ok { f with calledBy := v.texts }
  | "namespace" => .ok { f with scope := v.text }
  | "is_defined" => .ok { f with isDefined := v.isTrue }
  | "parameters" => .ok { f with parameters := v.texts }
  | "return_type" => .ok { f with returnType := v.text }
  | "is_virtual" => .ok { f with isVirtual := v.isTrue }
  | "overrides" => .ok { f with overrides := v.texts }
  | "is_template" => .ok { f with isTemplate := v.isTrue }
  | "template_params" => .ok { f with templateParams := v.texts }
  | "specializations" => .ok { f with specializations := v.texts }
  | "class_hierarchy" => .ok { f with classHierarchy := v.texts }
  | "is_member" => .ok { f with isMember := v.isTrue }
  | "class_name" => .ok { f with className := v.text }
  | "access_specifier" => .ok { f with accessSpecifier := v.text }
  | "is_const" => .ok { f with isConst := v.isTrue }
  | "is_static" => .ok { f with isStatic := v.isTrue }
  | "is_operator" => .ok { f with isOperator := v.isTrue }
  | "operator_kind" => .ok { f with operatorKind := v.text }
  | "is_constructor" => .ok { f with isConstructor := v.isTrue }
  | "is_destructor" => .ok { f with isDestructor := v.isTrue }
  | "is_explicit" => .ok { f with isExplicit := v.isTrue }
  | "is_inline" => .ok { f with isInline := v.isTrue }
  | "has_sfinae" => .ok { f with hasSfinae := v.isTrue }
  | "template_specialization_args" => .ok { f with specializationArgs := v.texts }
  | "has_variadic_templates" => .ok { f with hasVariadic := v.isTrue }
  | "variadic_template_param" => .ok { f with variadicParam := v.text }
  | "sfinae_techniques" => .ok { f with sfinaeTechniques := v.texts }
  | "is_metafunction" => .ok { f with isMetafunction := v.isTrue }
  | "metafunction_kind" => .ok { f with metafunctionKind := v.text }
  | "is_concept" => .ok { f with isConcept := v.isTrue }
  | "concept_requirements" => .ok { f with conceptRequirements := v.texts }
  | "partial_specialization" => .ok { f with partialSpecialization := v.isTrue }
  | "primary_template" => .ok { f with primaryTemplate := v.text }
  | "dependent_names" => .ok { f with dependentNames := v.texts }
  | "template_template_params" => .ok { f with templateTemplateParams := v.texts }
  | "constraint_expressions" => .ok { f with constraintExpressions := v.texts }
  | "metadata" => .ok { f with metadata := some v.fields }
  | _ => .error (.wrongShape ("unexpected keyword argument '" ++ key ++ "'"))

/-- Reads a function, named by its key unless it says otherwise. -/
def ofJson (key : String) (j : Json) : Except Fault Function :=
  j.fields.foldlM (fun f (k, v) => f.setField k v) { name := key }

def fieldUnless {α : Type} [BEq α] (key : String) (v default : α) (write : α → Json) :
    List (String × Json) :=
  if v == default then [] else [(key, write v)]

def toJson (f : Function) : Json :=
  let s := fun key v => fieldUnless key v "" Json.str
  let b := fun key v => fieldUnless key v false Json.bool
  let l := fun key v => fieldUnless key v [] Json.ofStrings
  .obj <| [("name", Json.str f.name)] ++ s "signature" f.signature ++ s "file_path" f.filePath ++
    s "body" f.body ++ fieldUnless "line_number" f.lineNumber 0 Json.int ++ l "calls" f.calls ++
    l "called_by" f.calledBy ++ s "namespace" f.scope ++
    fieldUnless "is_defined" f.isDefined true Json.bool ++ l "parameters" f.parameters ++
    s "return_type" f.returnType ++ b "is_virtual" f.isVirtual ++ l "overrides" f.overrides ++
    b "is_template" f.isTemplate ++ l "template_params" f.templateParams ++
    l "specializations" f.specializations ++ l "class_hierarchy" f.classHierarchy ++
    b "is_member" f.isMember ++ s "class_name" f.className ++
    fieldUnless "access_specifier" f.accessSpecifier "public" Json.str ++ b "is_const" f.isConst ++
    b "is_static" f.isStatic ++ b "is_operator" f.isOperator ++ s "operator_kind" f.operatorKind ++
    b "is_constructor" f.isConstructor ++ b "is_destructor" f.isDestructor ++
    b "is_explicit" f.isExplicit ++ b "is_inline" f.isInline ++ b "has_sfinae" f.hasSfinae ++
    l "template_specialization_args" f.specializationArgs ++
    b "has_variadic_templates" f.hasVariadic ++ s "variadic_template_param" f.variadicParam ++
    l "sfinae_techniques" f.sfinaeTechniques ++ b "is_metafunction" f.isMetafunction ++
    s "metafunction_kind" f.metafunctionKind ++ b "is_concept" f.isConcept ++
    l "concept_requirements" f.conceptRequirements ++
    b "partial_specialization" f.partialSpecialization ++ s "primary_template" f.primaryTemplate ++
    l "dependent_names" f.dependentNames ++ l "template_template_params" f.templateTemplateParams ++
    l "constraint_expressions" f.constraintExpressions ++
    (match f.isPureVirtual with
      | some v => [("is_pure_virtual", Json.bool v)]
      | none => [])

def sortedLists (f : Function) : Function :=
  { f with
    calls := sorted f.calls
    overrides := sorted f.overrides
    classHierarchy := sorted f.classHierarchy }

end Function

namespace Functions

def ofJson (j : Json) : Except Fault Functions := do
  let pairs ← j.items.mapM fun p => do
    return ((p.item 0).text, ← Function.ofJson (p.item 0).text (p.item 1))
  return Dict.ofPairs pairs

def toJson (fs : Functions) : Json :=
  .arr (fs.map fun (k, f) => .arr [.str k, f.toJson])

end Functions

namespace CallGraph

def ofJson (j : Json) : Except Fault CallGraph := do
  return { functions := ← Functions.ofJson (j.field "functions")
           missing := distinct (j.textsAt "missing") }

def toJson (g : CallGraph) : Json :=
  .obj [("functions", Functions.toJson g.functions),
    ("missing", .ofStrings (sortedSet g.missing))]

end CallGraph

end CodeAtlas

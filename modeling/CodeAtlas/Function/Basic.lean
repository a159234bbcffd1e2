import CodeAtlas.Dict
import CodeAtlas.Json.Basic

/-!
# Functions of a code base

What is known about one function: where it stands, what it calls and what calls it, and which of
the more advanced features of its language it uses. The relations to other functions are lists of
names without repetitions, in the order of discovery.
-/

namespace CodeAtlas

structure Function where
  name : String
  signature : String := ""
  filePath : String := ""
  body : String := ""
  lineNumber : Int := 0
  calls : List String := []
  calledBy : List String := []
  scope : String := ""
  isDefined : Bool := true
  parameters : List String := []
  returnType : String := ""
  isVirtual : Bool := false
  overrides : List String := []
  isTemplate : Bool := false
  templateParams : List String := []
  specializations : List String := []
  classHierarchy : List String := []
  isMember : Bool := false
  className : String := ""
  accessSpecifier : String := "public"
  isConst : Bool := false
  isStatic : Bool := false
  isOperator : Bool := false
  operatorKind : String := ""
  isConstructor : Bool := false
  isDestructor : Bool := false
  isExplicit : Bool := false
  isInline : Bool := false
  hasSfinae : Bool := false
  specializationArgs : List String := []
  hasVariadic : Bool := false
  variadicParam : String := ""
  sfinaeTechniques : List String := []
  isMetafunction : Bool := false
  metafunctionKind : String := ""
  isConcept : Bool := false
  conceptRequirements : List String := []
  partialSpecialization : Bool := false
  primaryTemplate : String := ""
  dependentNames : List String := []
  templateTemplateParams : List String := []
  constraintExpressions : List String := []
  isPureVirtual : Option Bool := none
  metadata : Option (Dict Json) := none
deriving Inhabited, Repr

namespace Function

def addCall (f : Function) (name : String) : Function :=
  { f with calls := addNew f.calls name }

def addCaller (f : Function) (name : String) : Function :=
  { f with calledBy := addNew f.calledBy name }

def addSpecialization (f : Function) (name : String) : Function :=
  { f with specializations := addNew f.specializations name }

def addOverride (f : Function) (name : String) : Function :=
  { f with overrides := addNew f.overrides name }

def addSfinaeTechnique (f : Function) (technique : String) : Function :=
  if f.sfinaeTechniques.contains technique then f
  else { f with sfinaeTechniques := f.sfinaeTechniques ++ [technique], hasSfinae := true }

def addConceptRequirement (f : Function) (requirement : String) : Function :=
  { f with conceptRequirements := addNew f.conceptRequirements requirement }

def addConstraintExpression (f : Function) (constraint : String) : Function :=
  { f with constraintExpressions := addNew f.constraintExpressions constraint }

/-- Takes a list from the later state of a function if the earlier state has a part of it. -/
def laterList (now later : List String) : List String := if now.isEmpty then [] else later

def withLaterLists (now later : Function) : Function :=
  { now with
    calls := laterList now.calls later.calls
    calledBy := laterList now.calledBy later.calledBy
    parameters := laterList now.parameters later.parameters
    overrides := laterList now.overrides later.overrides
    templateParams := laterList now.templateParams later.templateParams
    specializations := laterList now.specializations later.specializations
    classHierarchy := laterList now.classHierarchy later.classHierarchy
    sfinaeTechniques := laterList now.sfinaeTechniques later.sfinaeTechniques
    conceptRequirements := laterList now.conceptRequirements later.conceptRequirements
    dependentNames := laterList now.dependentNames later.dependentNames
    templateTemplateParams := laterList now.templateTemplateParams later.templateTemplateParams
    constraintExpressions := laterList now.constraintExpressions later.constraintExpressions }

end Function

abbrev Functions := Dict Function

end CodeAtlas

import CodeAtlas.Extraction.Definitions

/-!
# Features of templates

Two walks over a tree that complete the entries of templates already found: the first one relates
templates to the function templates right below them and marks operators, the second one looks at
parameters, packs and dependent names.
-/

namespace CodeAtlas.Extraction

open Text

/-- The arguments written in a token of the form `<a, b>`. -/
def bracketedArgs? (tokens : List String) : Option (List String) :=
  (tokens.find? fun t => startsWith t "<" && endsWith t ">").map fun t =>
    (split (strip (dropEnd (drop t 1) 1)) ",").map strip

def typeParams (a : Ast) : List String :=
  a.children.filterMap fun c => if c.kind == .typeParameter then some c.info.name else none

def noteNested (template : String) (fs : Functions) (c : Ast) : Functions :=
  let name := c.info.name
  if c.kind != .functionTemplate || name == template || !fs.has template then fs
  else
    let fs := Dict.adjust fs template (·.addSpecialization name)
    Dict.adjust fs name fun f =>
      let f :=
        { f with isTemplate := true, templateParams := typeParams c }.addSpecialization template
      match bracketedArgs? c.info.tokens with
      | some args => { f with specializationArgs := args }
      | none => f

def noteOperator (info : NodeInfo) (fs : Functions) : Functions :=
  if info.kind == .function && startsWith info.name "operator" then
    Dict.adjust fs info.name fun f =>
      { f with isOperator := true, operatorKind := strip (drop info.name 8) }
  else fs

def childShowsSfinae (c : Ast) : Bool :=
  c.info.tokens.any fun t =>
    occursIn "enable_if" t || occursIn "void_t" t || occursIn "decltype" t

def noteSfinae (a : Ast) (fs : Functions) : Functions :=
  if a.kind == .functionTemplate && a.children.any childShowsSfinae then
    Dict.adjust fs a.info.name fun f => { f with hasSfinae := true }
  else fs

mutual

def templateInfo (file : String) : Ast → Functions → Functions
  | .node info children, fs =>
    if info.isElsewhere file then fs
    else
      let fs := if info.kind.isTemplate then children.foldl (noteNested info.name) fs else fs
      let fs := noteSfinae (.node info children) (noteOperator info fs)
      templateInfoAll file children fs

def templateInfoAll (file : String) : List Ast → Functions → Functions
  | [], fs => fs
  | a :: rest, fs => templateInfoAll file rest (templateInfo file a fs)

end

def foldPatterns : List Pattern :=
  ["\\([^)]*\\.\\.\\.[^)]*\\)", "\\([^)]*\\+[^)]*\\.\\.\\.[^)]*\\)",
   "\\([^)]*\\.\\.\\.[^)]*\\+[^)]*\\)",
   "\\([^)]*(?:\\|\\||&&)[^)]*\\.\\.\\.[^)]*\\)"].map Pattern.ofString

def memberTypePattern : Pattern := .ofString "typename\\s+([A-Za-z0-9_]+)::([A-Za-z0-9_]+)"

def dependentTemplatePattern : Pattern := .ofString "typename\\s+([A-Za-z0-9_]+)<"

structure ParameterSigns where
  params : List String := []
  pack : Option String := none
  templates : List String := []
  dependent : List String := []
deriving Repr, DecidableEq

def isDependent (params : List String) (token : String) : Bool :=
  occursIn "::" token && params.contains ((split token "::").headD "")

def ParameterSigns.add (s : ParameterSigns) (c : Ast) : ParameterSigns :=
  match c.kind with
  | .typeParameter | .valueParameter =>
    let params := s.params ++ [c.info.name]
    { s with
      params
      pack := if c.info.tokens.any (occursIn "..." ·) then some c.info.name else s.pack
      dependent := s.dependent ++ c.info.tokens.filter (isDependent params) }
  | .templateParameter =>
    { s with params := s.params ++ [c.info.name], templates := s.templates ++ [shownParam c] }
  | _ => s

def dependentNamesInText (text : String) : List String :=
  if occursIn "typename" text then
    ((memberTypePattern.findAll text).map fun m => qualify (m.group 1) (m.group 2)) ++
      (dependentTemplatePattern.findAll text).map (·.group 1)
  else []

def completeTemplate (a : Ast) (f : Function) : Except Fault Function := do
  let signs := a.children.foldl ParameterSigns.add {}
  let text := a.info.text
  let f := { f with
    dependentNames := f.dependentNames ++ signs.dependent, templateParams := signs.params }
  let f := match signs.pack with
    | some p =>
      addTechniqueIf (foldPatterns.any (·.foundIn text)) "fold_expression"
        { f with hasVariadic := true, variadicParam := p }
    | none => f
  let f :=
    if signs.templates.isEmpty then f else { f with templateTemplateParams := signs.templates }
  let f ← detectAll a f
  return { f with dependentNames := addAllNew f.dependentNames (dependentNamesInText text) }

mutual

def completeTemplates (file : String) : Ast → Functions → Except Fault Functions
  | .node info children, fs => do
    if info.isElsewhere file then return fs
    let fs ←
      if info.kind == .functionTemplate && !info.name.isEmpty then
        adjustM fs info.name (completeTemplate (.node info children))
      else pure fs
    completeTemplatesAll file children fs

def completeTemplatesAll (file : String) : List Ast → Functions → Except Fault Functions
  | [], fs => .ok fs
  | a :: rest, fs => do completeTemplatesAll file rest (← completeTemplates file a fs)

end

/-- Adds the specialization of a comparison of types to equal ones, if the comparison is known. -/
def addSameType (fs : Functions) : Functions :=
  match fs.get? "is_same" with
  | some f =>
    if f.isTemplate && !fs.has "is_same<T, T>" then
      let fs := Dict.set fs "is_same<T, T>" (sameTypeSpecialization f.filePath f.lineNumber)
      Dict.adjust fs "is_same" (·.addSpecialization "is_same<T, T>")
    else fs
  | none => fs

def advancedTemplates (file : String) (a : Ast) (fs : Functions) : Except Fault Functions :=
  completeTemplates file a (addSameType fs)

end CodeAtlas.Extraction

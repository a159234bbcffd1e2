import CodeAtlas.Extraction.Calls
import CodeAtlas.Extraction.Concepts
import CodeAtlas.Extraction.Metafunctions
import CodeAtlas.Extraction.Specialization
import CodeAtlas.Extraction.TemplateParameters

/-!
# Definitions

The functions, methods and templates that are defined below a node, with their calls. A name that
was found before keeps its entry.
-/

namespace CodeAtlas.Extraction

open Text

def entryOf (info : NodeInfo) (name : String) : Function :=
  { name, filePath := info.fileName, lineNumber := info.line, signature := info.displayName }

def record (fs : Functions) (f : Function) : Functions :=
  if fs.has f.name then fs else Dict.set fs f.name f

def functionNode (a : Ast) (fs : Functions) : Functions :=
  if !a.info.isDefinition then fs
  else findCalls a.info.name a (record fs (entryOf a.info a.info.name))

def methodName (info : NodeInfo) : String :=
  match info.scope with
  | some s => if s.kind.isClass then qualify s.name info.name else info.name
  | none => info.name

def methodNode (a : Ast) (fs : Functions) : Functions :=
  if !a.info.isDefinition then fs
  else
    let name := methodName a.info
    findCalls name a (record fs { entryOf a.info name with
      isVirtual := a.info.isVirtual, isMember := true,
      className := (a.info.scope.map (·.name)).getD "" })

def packPattern : Pattern := .ofString "(typename|class)\\s*\\.\\.\\.\\s*(\\w+)"

/-- The parameter pack of a template, if it has one: the name is empty if it is not known. -/
def parameterPack? (params : List String) (text : String) : Option String :=
  match params.find? (occursIn "..." ·) with
  | some p => some p
  | none =>
    if occursIn "..." text then
      some (((packPattern.findAll text).head?.map (·.group 2)).getD "")
    else none

def firstTechniques (info : NodeInfo) : List String :=
  let text := info.text
  (if occursIn "enable_if" info.displayName then ["enable_if"] else []) ++
    (if occursIn "decltype" text then ["decltype"] else []) ++
    (if occursIn "void_t" text then ["void_t"] else [])

def showsSfinae (info : NodeInfo) : Bool :=
  occursIn "enable_if" info.displayName ||
    ["decltype", "void_t", "std::declval"].any (occursIn · info.text)

def newTemplate (a : Ast) : Function :=
  let params := templateParams a
  let pack := parameterPack? params a.info.text
  { entryOf a.info a.info.name with
    isTemplate := true, templateParams := params, hasVariadic := pack.isSome,
    variadicParam := pack.getD "", templateTemplateParams := templateTemplateParams a,
    hasSfinae := showsSfinae a.info, sfinaeTechniques := firstTechniques a.info }

def knownTemplate (a : Ast) (f : Function) : Function :=
  let params := templateParams a
  let f := { f with isTemplate := true, templateParams := params }
  let f := match parameterPack? params a.info.text with
    | some p => { f with hasVariadic := true, variadicParam := p }
    | none => f
  let templates := templateTemplateParams a
  let f := if templates.isEmpty then f else { f with templateTemplateParams := templates }
  if showsSfinae a.info then
    (firstTechniques a.info).foldl Function.addSfinaeTechnique { f with hasSfinae := true }
  else f

def adjustM (fs : Functions) (name : String) (change : Function → Except Fault Function) :
    Except Fault Functions :=
  match fs.get? name with
  | some f => do return Dict.set fs name (← change f)
  | none => .ok fs

def detectAll (a : Ast) (f : Function) : Except Fault Function := do
  return detectSpecialization a (← detectConcepts a (detectSfinae a (detectMetafunction a f)))

def templateFunctionNode (a : Ast) (fs : Functions) : Except Fault Functions :=
  let name := a.info.name
  let fs :=
    if fs.has name then Dict.adjust fs name (knownTemplate a) else Dict.set fs name (newTemplate a)
  adjustM (findCalls name a fs) name (detectAll a)

def sameTypeSpecialization (file : String) (line : Int) : Function :=
  { name := "is_same<T, T>", filePath := file, lineNumber := line,
    signature := "template <typename T> struct is_same<T, T>", isTemplate := true,
    templateParams := ["T"], partialSpecialization := true, primaryTemplate := "is_same" }

def looksSpecialized (tokens : List String) (text : String) : Bool :=
  tokens.contains "template" && occursIn "<" text && occursIn ">" text &&
    ((count text "typename" == 1 && count text "<" ≥ 2) ||
      (occursIn "struct is_same" text && count text "T" ≥ 2))

def classKind? (text : String) : Option String :=
  let has := fun p => occursIn p text
  if has "value" && (has "static" || has "constexpr" || has "const") then some "value_trait"
  else if has "type" && (has "typedef" || has "using") then some "type_trait"
  else none

def metafunctionEntry (a : Ast) (kind : String) : Function :=
  let name := a.info.name
  let text := a.info.text
  let params := templateParams a
  let f : Function :=
    { entryOf a.info name with
      signature := "template <" ++ join ", " params ++ "> struct " ++ name,
      isTemplate := true, templateParams := params, isMetafunction := true,
      metafunctionKind := kind, templateTemplateParams := templateTemplateParams a }
  let f :=
    if occursIn "<" name || occursIn "partial specialization" text then
      setPrimary { f with partialSpecialization := true }
    else f
  ["enable_if", "decltype", "void_t"].foldl (fun f t =>
    if occursIn t text then { f with hasSfinae := true }.addSfinaeTechnique t else f) f

def registerTemplateClass (a : Ast) (fs : Functions) : Functions :=
  let info := a.info
  let text := info.text
  let fs :=
    if (info.name == "is_same" || (startsWith text "template" && occursIn "is_same" text)) &&
        looksSpecialized info.tokens text then
      record fs (sameTypeSpecialization info.fileName info.line)
    else fs
  if (!info.name.isEmpty && occursIn "struct" text) || occursIn "class" text then
    match classKind? text with
    | some kind =>
      Dict.set fs info.name
        (detectSpecialization a (detectSfinae a (detectMetafunction a (metafunctionEntry a kind))))
    | none =>
      let templates := templateTemplateParams a
      if templates.isEmpty then fs
      else
        let params := templateParams a
        record fs { entryOf info info.name with
          signature := "template <" ++ join ", " params ++ "> class " ++ info.name,
          isTemplate := true, templateParams := params, templateTemplateParams := templates }
  else fs

/-- Records a new entry and its calls, unless the name is known. -/
def recordWithCalls (a : Ast) (fs : Functions) (f : Function) : Functions :=
  if fs.has f.name then fs else findCalls f.name a (Dict.set fs f.name f)

def classMethod (className : String) (a : Ast) (fs : Functions) : Functions :=
  if a.info.isDefinition then
    recordWithCalls a fs { entryOf a.info (qualify className a.info.name) with
      isMember := true, className := className, isVirtual := a.info.isVirtual }
  else fs

def templateClassMethod (className : String) (params : List String) (a : Ast) (fs : Functions) :
    Functions :=
  if a.info.isDefinition then
    recordWithCalls a fs { entryOf a.info (qualify className a.info.name) with
      isTemplate := true, templateParams := params, isMember := true, className := className,
      isVirtual := a.info.isVirtual }
  else fs

def templateClassTemplate (className : String) (params : List String) (a : Ast) (fs : Functions) :
    Functions :=
  recordWithCalls a fs { entryOf a.info (qualify className a.info.name) with
    isTemplate := true, templateParams := params ++ templateParams a, isMember := true,
    className := className }

mutual

def visit (file : String) : Ast → Functions → Except Fault Functions
  | .node info children, fs =>
    let a := Ast.node info children
    if info.isElsewhere file then .ok fs
    else
      match info.kind with
      | .function => .ok (functionNode a fs)
      | .method => .ok (methodNode a fs)
      | .functionTemplate => templateFunctionNode a fs
      | .classTemplate =>
        templateMembers info (templateParams a) children (registerTemplateClass a fs)
      | .classDecl | .structDecl => classMembers info children fs
      | _ => visitAll file children fs

def visitAll (file : String) : List Ast → Functions → Except Fault Functions
  | [], fs => .ok fs
  | a :: rest, fs => do visitAll file rest (← visit file a fs)

def templateClassNode : Ast → Functions → Except Fault Functions
  | .node info children, fs =>
    let a := Ast.node info children
    templateMembers info (templateParams a) children (registerTemplateClass a fs)

def templateMembers (info : NodeInfo) (params : List String) :
    List Ast → Functions → Except Fault Functions
  | [], fs => .ok fs
  | a :: rest, fs => do
    let fs ← match a.kind with
      | .method => pure (templateClassMethod info.name params a fs)
      | .functionTemplate => pure (templateClassTemplate info.name params a fs)
      | .classTemplate => templateClassNode a fs
      | .classDecl | .structDecl => visit info.fileName a fs
      | _ => pure fs
    templateMembers info params rest fs

def classMembers (info : NodeInfo) : List Ast → Functions → Except Fault Functions
  | [], fs => .ok fs
  | a :: rest, fs => do
    let fs ← match a.kind with
      | .method => pure (classMethod info.name a fs)
      | .classDecl | .structDecl => visit info.fileName a fs
      | _ => pure fs
    classMembers info rest fs

end

def classNode (a : Ast) (fs : Functions) : Except Fault Functions :=
  classMembers a.info a.children fs

end CodeAtlas.Extraction

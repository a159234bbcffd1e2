import CodeAtlas.Extraction.Definitions

/-!
# Classes of methods

A walk over a tree that completes the entries of methods already found: the class, the methods
overridden in base classes and the classes above.
-/

namespace CodeAtlas.Extraction

structure ClassFindings where
  functions : Functions
  bases : Dict (List String) := []

def baseClasses (children : List Ast) : List String :=
  children.filterMap fun c => if c.kind == .baseSpecifier then c.info.definition else none

def noteOverride (name method : String) (fs : Functions) (base : String) : Functions :=
  let overridden := qualify base method
  match fs.get? overridden, fs.get? name with
  | some b, some f =>
    if b.isVirtual && b.parameters.length == f.parameters.length then
      Dict.adjust fs name fun f =>
        { f.addOverride overridden with classHierarchy := addNew f.classHierarchy base }
    else fs
  | _, _ => fs

/-- Completes the entry of a method. A constructor that has anything below its node is a fault: the
mark that is asked of its children does not exist. -/
def noteMethod (className : String) (bases : List String) (fs : Functions) (a : Ast) :
    Except Fault Functions := do
  let info := a.info
  if !(info.kind == .method || info.kind == .constructor || info.kind == .destructor) then return fs
  let name := qualify className info.name
  if !fs.has name then return fs
  let fs := Dict.adjust fs name fun f => { f with isMember := true, className := className }
  let fs :=
    if info.isVirtual then
      bases.foldl (noteOverride name info.name)
        (Dict.adjust fs name fun f => { f with isVirtual := true })
    else fs
  let fs ←
    if info.kind == .constructor then
      if a.children.isEmpty then
        pure (Dict.adjust fs name fun f => { f with isConstructor := true })
      else throw (.missingPart "type object 'CursorKind' has no attribute 'CXX_OVERRIDE'")
    else pure fs
  return Dict.adjust fs name fun f =>
    { f with
      isDestructor := f.isDestructor || info.kind == .destructor
      isConst := f.isConst || info.isConst
      isStatic := f.isStatic || info.isStatic }

mutual

def visitClasses (file : String) : Ast → ClassFindings → Except Fault ClassFindings
  | .node info children, s => do
    if info.isElsewhere file then return s
    let s ←
      if info.kind.isClass || info.kind == .classTemplate then
        let bases := baseClasses children
        let fs ← children.foldlM (noteMethod info.name bases) s.functions
        pure { functions := fs, bases := Dict.set s.bases info.name bases }
      else pure s
    visitClassesAll file children s

def visitClassesAll (file : String) : List Ast → ClassFindings → Except Fault ClassFindings
  | [], s => .ok s
  | a :: rest, s => do visitClassesAll file rest (← visitClasses file a s)

end

def addInherited (bases : Dict (List String)) (fs : Functions) : Functions :=
  fs.map fun (k, f) =>
    match f.isMember, bases.get? f.className with
    | true, some bs => (k, { f with classHierarchy := addAllNew f.classHierarchy bs })
    | _, _ => (k, f)

def classHierarchy (file : String) (a : Ast) (fs : Functions) : Except Fault Functions := do
  let s ← visitClasses file a ⟨fs, []⟩
  return addInherited s.bases s.functions

end CodeAtlas.Extraction

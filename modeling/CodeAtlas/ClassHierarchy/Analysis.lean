import CodeAtlas.Ast
import CodeAtlas.ClassHierarchy.Basic

/-!
# Hierarchies of source files

The class hierarchy that the tree of a source file shows, and the methods overridden in it.
-/

namespace CodeAtlas.ClassHierarchy

def signatureOf (info : NodeInfo) : Json :=
  .obj [("return_type", .str info.resultType), ("param_types", .ofStrings info.argTypes),
    ("is_const", .bool info.isConst), ("access", .str info.access)]

def putField (j : Json) (key : String) (value : Json) : Json :=
  match j with
  | .obj fields => .obj (Json.setField fields key value)
  | j => j

def noteBase (name : String) (h : ClassHierarchy) (a : Ast) : ClassHierarchy :=
  match a.kind, a.info.definition with
  | .baseSpecifier, some base =>
    let h := (h.ensure base).adjust name (·.addBase base)
    let h := h.adjust base (·.addDerived name)
    h.adjust name fun c => { c with baseAccess := putField c.baseAccess base (.str a.info.access) }
  | _, _ => h

def noteVirtual (name : String) (h : ClassHierarchy) (a : Ast) : ClassHierarchy :=
  if a.kind == .method && a.info.isVirtual then
    h.adjust name fun c =>
      let c := c.addVirtual a.info.name a.info.isPure
      { c with signatures := putField c.signatures a.info.name (signatureOf a.info) }
  else h

def placeOf (info : NodeInfo) : String :=
  match info.file with
  | some f => f ++ ":" ++ toString info.line
  | none => ""

/-- Records a class with its bases and its virtual methods. A class without a name is left out. -/
def noteClass (info : NodeInfo) (children : List Ast) (h : ClassHierarchy) : ClassHierarchy :=
  if info.name.isEmpty then h
  else
    let h := (h.ensure info.name).adjust info.name fun c =>
      { c with location := .str (placeOf info) }
    let h := children.foldl (noteBase info.name) h
    children.foldl (noteVirtual info.name) h

mutual

def noteTree : Ast → ClassHierarchy → ClassHierarchy
  | .node info children, h =>
    noteTrees children
      (if info.kind.isClass || info.kind == .classTemplate then noteClass info children h else h)

def noteTrees : List Ast → ClassHierarchy → ClassHierarchy
  | [], h => h
  | a :: rest, h => noteTrees rest (noteTree a h)

end

def parameterCount (signature : Json) : Except Fault Nat :=
  match signature with
  | .obj fields =>
    match Dict.get? fields "param_types" with
    | some (.arr l) => .ok l.length
    | some (.str s) => .ok (Text.size s)
    | some (.obj l) => .ok l.length
    | some _ => .error (.wrongShape "object has no len()")
    | none => .error (.missingKey "param_types")
  | _ => .error (.wrongShape "indices must be integers")

/-- A method of a derived class can override that of a base class: both have signatures, with the
same number of parameters. -/
def isCompatible (base derived : ClassNode) (method : String) : Except Fault Bool := do
  match base.signatures.get? method, derived.signatures.get? method with
  | some b, some d => return (← parameterCount b) == (← parameterCount d)
  | _, _ => return false

def noteOverridden (name base : String) (h : ClassHierarchy) (method : String) :
    Except Fault ClassHierarchy := do
  match h.getClass? name, h.getClass? base with
  | some c, some b =>
    if (← c.methods).contains method && (← isCompatible b c method) then
      return h.adjust name fun c => (c.addOverridden method base).addVirtual method false
    else return h
  | _, _ => return h

def resolveClass (h : ClassHierarchy) (name : String) : Except Fault ClassHierarchy :=
  (h.related (·.bases) name).foldlM (fun h base =>
    (h.related (·.virtuals) base).foldlM (noteOverridden name base) h) h

def resolve (h : ClassHierarchy) : Except Fault ClassHierarchy :=
  h.classes.keys.foldlM resolveClass h

def ofAst (a : Ast) : Except Fault ClassHierarchy := resolve (noteTree a {})

end CodeAtlas.ClassHierarchy

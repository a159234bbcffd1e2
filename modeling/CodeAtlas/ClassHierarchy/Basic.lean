import CodeAtlas.Dict
import CodeAtlas.Fault

/-!
# Class hierarchies

The classes of a code base with their bases, their derived classes and their virtual methods. The
sets of a class are lists without repetitions.
-/

namespace CodeAtlas

structure ClassNode where
  name : String
  location : Json := .str ""
  bases : List String := []
  derived : List String := []
  baseAccess : Json := .obj []
  virtuals : List String := []
  pureVirtuals : List String := []
  overridden : Dict (List String) := []
  signatures : Json := .obj []
deriving Repr, Inhabited

namespace ClassNode

def addBase (c : ClassNode) (base : String) : ClassNode := { c with bases := addNew c.bases base }

def addDerived (c : ClassNode) (derived : String) : ClassNode :=
  { c with derived := addNew c.derived derived }

def addVirtual (c : ClassNode) (method : String) (isPure : Bool) : ClassNode :=
  { c with
    virtuals := addNew c.virtuals method
    pureVirtuals := if isPure then addNew c.pureVirtuals method else c.pureVirtuals }

def addOverridden (c : ClassNode) (method base : String) : ClassNode :=
  let bases := addNew ((c.overridden.get? method).getD []) base
  { c with overridden := Dict.set c.overridden method bases }

def mention (c : ClassNode) (method : String) : ClassNode :=
  { c with overridden := Dict.set c.overridden method ((c.overridden.get? method).getD []) }

def setIn (j : Json) (key : String) (value : Json) : Except Fault Json :=
  match j with
  | .obj fields => .ok (.obj (Json.setField fields key value))
  | _ => .error (.wrongShape "object does not support item assignment")

def setSignature (c : ClassNode) (method : String) (signature : Json) : Except Fault ClassNode := do
  return { c with signatures := ← setIn c.signatures method signature }

def methods (c : ClassNode) : Except Fault (List String) :=
  match c.signatures with
  | .obj fields => .ok (Dict.keys fields)
  | _ => .error (.missingPart "object has no attribute 'keys'")

def member : Json → Except Fault String
  | .arr _ => .error (.wrongShape "unhashable type: 'list'")
  | .obj _ => .error (.wrongShape "unhashable type: 'dict'")
  | j => .ok j.literalText

def members (j : Json) : Except Fault (List String) :=
  match j with
  | .arr items => do return Text.distinct (← items.mapM member)
  | .str s => .ok (Text.distinct (s.toList.map fun c => String.ofList [c]))
  | .obj fields => .ok (Dict.keys fields)
  | _ => .error (.wrongShape "object is not iterable")

def ofJson (j : Json) : Except Fault ClassNode := do
  match j with
  | .obj _ => pure ()
  | _ => throw (.wrongShape "indices must be integers")
  let name ← match j.get? "name" with
    | some name => pure name
    | none => throw (.missingKey "name")
  let bases ← members (j.getD "base_classes" (.arr []))
  let derived ← members (j.getD "derived_classes" (.arr []))
  let virtuals ← members (j.getD "virtual_methods" (.arr []))
  let pureVirtuals ← members (j.getD "pure_virtual_methods" (.arr []))
  let overridden ← match j.getD "overridden_methods" (.obj []) with
    | .obj fields => fields.mapM fun (k, v) => do return (k, ← members v)
    | _ => throw (.missingPart "object has no attribute 'items'")
  return {
    bases, derived, virtuals, pureVirtuals, overridden
    name := ← member name
    location := j.getD "location" (.str "")
    baseAccess := j.getD "base_class_access" (.obj [])
    signatures := j.getD "method_signatures" (.obj []) }

def toJson (c : ClassNode) : Json :=
  let set := fun l => Json.ofStrings (Text.sorted l)
  .obj [("name", .str c.name), ("location", c.location), ("base_classes", set c.bases),
    ("derived_classes", set c.derived), ("base_class_access", c.baseAccess),
    ("virtual_methods", set c.virtuals), ("pure_virtual_methods", set c.pureVirtuals),
    ("overridden_methods", .obj (c.overridden.map fun (k, l) => (k, set l))),
    ("method_signatures", c.signatures)]

end ClassNode

structure ClassHierarchy where
  classes : Dict ClassNode := []
deriving Repr, Inhabited

namespace ClassHierarchy

def addClass (h : ClassHierarchy) (c : ClassNode) : ClassHierarchy :=
  { classes := Dict.set h.classes c.name c }

def getClass? (h : ClassHierarchy) (name : String) : Option ClassNode := h.classes.get? name

def ensure (h : ClassHierarchy) (name : String) : ClassHierarchy :=
  if h.classes.has name then h else h.addClass { name }

def adjust (h : ClassHierarchy) (name : String) (change : ClassNode → ClassNode) : ClassHierarchy :=
  { classes := Dict.adjust h.classes name change }

/-- The classes that a class is directly related to, none if it is not known. -/
def related (h : ClassHierarchy) (next : ClassNode → List String) (name : String) : List String :=
  ((h.getClass? name).map next).getD []

structure Reach where
  visited : List String := []
  found : List String := []
deriving Repr, DecidableEq

/-- Goes on to all classes related to a class, unless it was visited; `fuel` bounds the depth. -/
def reachFrom (h : ClassHierarchy) (next : ClassNode → List String) :
    Nat → String → Reach → Reach
  | 0, _, r => r
  | fuel + 1, name, r =>
    if r.visited.contains name then r
    else
      (h.related next name).foldl
        (fun r n => h.reachFrom next fuel n { r with found := addNew r.found n })
        { r with visited := name :: r.visited }

def basesOf (h : ClassHierarchy) (name : String) (recursive : Bool) : List String :=
  if recursive then (h.reachFrom (·.bases) (h.classes.length + 2) name {}).found
  else h.related (·.bases) name

/-- The classes derived from a class; on demand also those derived from derived ones. -/
def derivedOf (h : ClassHierarchy) (name : String) (recursive : Bool) : List String :=
  if recursive then (h.reachFrom (·.derived) (h.classes.length + 2) name {}).found
  else h.related (·.derived) name

def ofJson (j : Json) : Except Fault ClassHierarchy := do
  match j with
  | .obj _ => pure ()
  | _ => throw (.missingPart "object has no attribute 'get'")
  match j.getD "classes" (.obj []) with
  | .obj fields => fields.foldlM (fun h (_, c) => do return h.addClass (← ClassNode.ofJson c)) {}
  | _ => throw (.missingPart "object has no attribute 'items'")

def toJson (h : ClassHierarchy) : Json :=
  .obj [("classes", .obj (h.classes.map fun (k, c) => (k, c.toJson)))]

end ClassHierarchy

end CodeAtlas

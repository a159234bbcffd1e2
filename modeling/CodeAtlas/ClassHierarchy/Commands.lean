import CodeAtlas.Ast.Document
import CodeAtlas.CallGraph.Document
import CodeAtlas.ClassHierarchy.VirtualTable
import CodeAtlas.ClassHierarchy.Workspace

/-!
# Commands on class hierarchies

Work on a hierarchy as a list of commands. A command is a list: a word, then names and data.

A class hierarchy tells about the functions of a code base: the class of a method, what it
overrides, and which methods a virtual call can reach.
-/

namespace CodeAtlas

namespace ClassHierarchy

def splitQualified (name : String) : String × String :=
  let parts := Text.split name "::"
  (Text.join "::" parts.dropLast, parts.getLastD "")

def enrichMethod (h : ClassHierarchy) (key : String) (f : Function) : Function :=
  let (scope, method) := splitQualified key
  let f := { f with className := scope, isMember := true }
  match h.getClass? scope with
  | none => f
  | some c =>
    let f := { f with classHierarchy := c.bases }
    if c.virtuals.contains method then
      let f := { f with isVirtual := true }
      let f := ((c.overridden.get? method).getD []).foldl
        (fun f base => f.addOverride (base ++ "::" ++ method)) f
      if c.pureVirtuals.contains method then { f with isPureVirtual := some true } else f
    else f

def enrich (h : ClassHierarchy) (fs : Functions) : Functions :=
  fs.map fun (key, f) => if Text.occursIn "::" key then (key, h.enrichMethod key f) else (key, f)

def expandCall (h : ClassHierarchy) (acc : List String) (called : String) : List String :=
  let (scope, method) := splitQualified called
  let virtual' := Text.occursIn "::" called && (h.related (·.virtuals) scope).contains method
  let acc :=
    if virtual' then addAllNew acc ((h.virtualTargets scope method).filter (· != called)) else acc
  addNew acc called

def expandCalls (h : ClassHierarchy) (fs : Functions) : Functions :=
  fs.map fun (key, f) => (key, { f with calls := f.calls.foldl h.expandCall [] })

end ClassHierarchy

def ClassWorkspace.perform (j : Json) : ClassWork ClassView := do
  let name := fun n => ClassNode.member (j.item n)
  match j.wordAt 0 with
  | "create" =>
    let c ← name 1
    modify (·.create c)
    return (← get).showName c
  | "get" => return (← get).showName (← name 1)
  | "add_class" =>
    let c ← ClassNode.ofJson (j.item 1)
    modify (·.add c)
    return .data .null
  | "load" =>
    let h ← ClassHierarchy.ofJson (j.item 1)
    modify (·.load h)
    return (← get).showAll
  | "roundtrip" =>
    let h ← ClassHierarchy.ofJson (← get).hierarchy.toJson
    modify ({ · with hierarchy := h })
    return (← get).showAll
  | "dump" => return (← get).showAll
  | "bases" => return .data (.ofSet ((← get).hierarchy.basesOf (← name 1) (j.item 2).truthy))
  | "derived" => return .data (.ofSet ((← get).hierarchy.derivedOf (← name 1) (j.item 2).truthy))
  | "methods" => return .data (.ofStrings (← (← (← get).find (← name 1)).methods))
  | "signature" => change (← name 1) fun c => do c.setSignature (← name 2) (j.item 3)
  | "base" => change (← name 1) fun c => return c.addBase (← name 2)
  | "derive" => change (← name 1) fun c => return c.addDerived (← name 2)
  | "virtual" => change (← name 1) fun c => return c.addVirtual (← name 2) (j.item 3).truthy
  | "overridden" =>
    -- The method is noted also where its base class is refused.
    let c ← name 1
    let _ ← change c fun c => return c.mention (← name 2)
    change c fun c => return c.addOverridden (← name 2) (← name 3)
  | m => throw (.unknownName m)

def ClassHierarchy.entriesJson (h : ClassHierarchy) : Json :=
  .ofEntries (h.classes.map fun (k, c) => (k, c.toJson))

def sortedFunctions (fs : Functions) : Json :=
  Functions.toJson (fs.map fun (k, f) => (k, f.sortedLists))

structure HierarchyStudy where
  hierarchy : ClassHierarchy
  cache : ClassHierarchy.TableCache := []
  functions : Functions

def HierarchyStudy.perform (s : HierarchyStudy) (j : Json) :
    Except Fault (Json × HierarchyStudy) := do
  let name := j.wordAt 1
  let h := s.hierarchy
  match j.wordAt 0 with
  | "ast" =>
    let h ← ClassHierarchy.ofAst (.ofJson (j.item 1))
    return (h.entriesJson, { s with hierarchy := h, cache := [] })
  | "resolve" =>
    let h ← h.resolve
    return (h.entriesJson, { s with hierarchy := h })
  | "vtable" =>
    let (t, cache) := h.virtualTable name s.cache
    return (.obj (t.map fun (k, l) => (k, .ofSet l)), { s with cache })
  | "clear_cache" => return (.null, { s with cache := [] })
  | "virtual_call" => return (.ofStrings (Text.sorted (h.virtualTargets name (j.wordAt 2))), s)
  | "below" =>
    let l := h.below name
    return (.arr [.str (l.headD ""), .ofStrings (Text.sorted (l.drop 1))], s)
  | "compatible" =>
    match h.getClass? name, h.getClass? (j.wordAt 2) with
    | some b, some d => return (.bool (← ClassHierarchy.isCompatible b d (j.wordAt 3)), s)
    | none, _ => throw (.missingKey name)
    | _, none => throw (.missingKey (j.wordAt 2))
  | "enrich" =>
    let fs := h.enrich s.functions
    return (sortedFunctions fs, { s with functions := fs })
  | "resolve_calls" =>
    let fs := h.expandCalls s.functions
    return (sortedFunctions fs, { s with functions := fs })
  | m => throw (.unknownName m)

end CodeAtlas

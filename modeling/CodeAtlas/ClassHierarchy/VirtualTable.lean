import CodeAtlas.ClassHierarchy.Analysis

/-!
# Virtual method tables

Which classes implement the virtual methods that a class has. Tables are kept once computed: a
table computed while the tables of some derived classes were still open is kept as it is.
-/

namespace CodeAtlas

abbrev VirtualTable := Dict (List String)

namespace ClassHierarchy

def mergeTable (table base : VirtualTable) : VirtualTable :=
  base.foldl (fun t (method, classes) =>
    match t.get? method with
    | some l => Dict.set t method (addAllNew l classes)
    | none => Dict.set t method classes) table

def overrides (c : ClassNode) (method : String) : Bool :=
  match c.overridden.get? method with
  | some l => c.bases.any l.contains
  | none => false

/-- Enters a virtual method of a class: an overriding method only if a base class has it. -/
def enterMethod (c : ClassNode) (table : VirtualTable) (method : String) : VirtualTable :=
  if overrides c method && !table.has method then table else Dict.set table method [c.name]

abbrev TableCache := Dict VirtualTable

/-- The table of a class. The classes in `visited` are open: their tables count as empty. `fuel`
bounds the depth. -/
def tableFrom (h : ClassHierarchy) :
    Nat → List String → String → TableCache → VirtualTable × TableCache
  | 0, _, _, cache => ([], cache)
  | fuel + 1, visited, name, cache =>
    match cache.get? name with
    | some t => (t, cache)
    | none =>
      if visited.contains name then ([], cache)
      else
        match h.getClass? name with
        | none => ([], cache)
        | some c =>
          let (table, cache) := (c.bases.filter h.classes.has).foldl (fun (table, cache) base =>
            let (t, cache) := h.tableFrom fuel (name :: visited) base cache
            (mergeTable table t, cache)) (([] : VirtualTable), cache)
          let table := c.virtuals.foldl (enterMethod { c with name }) table
          (table, Dict.set cache name table)

def virtualTable (h : ClassHierarchy) (name : String) (cache : TableCache) :
    VirtualTable × TableCache :=
  h.tableFrom (h.classes.length + 2) [] name cache

def newOnes (visited names : List String) : List String :=
  names.foldl (fun acc n => if visited.contains n || acc.contains n then acc else acc ++ [n]) []

/-- All classes from the given queue on, level by level; `fuel` bounds the number of classes. -/
def belowFrom (h : ClassHierarchy) : Nat → List String → List String → List String
  | 0, _, visited => visited
  | _, [], visited => visited
  | fuel + 1, current :: queue, visited =>
    let next := newOnes visited (h.related (·.derived) current)
    h.belowFrom fuel (queue ++ next) (visited ++ next)

def below (h : ClassHierarchy) (name : String) : List String :=
  let total := h.classes.foldl (fun n (_, c) => n + c.derived.length) 1
  h.belowFrom (total + 1) [name] [name]

def virtualTargets (h : ClassHierarchy) (name method : String) : List String :=
  let fallback := [name ++ "::" ++ method]
  match h.getClass? name with
  | none => fallback
  | some c =>
    if !c.virtuals.contains method then fallback
    else
      let targets := (h.below name).filterMap fun n =>
        match h.getClass? n with
        | some d =>
          if d.virtuals.contains method && !(d.pureVirtuals.contains method && n == name) then
            some (n ++ "::" ++ method)
          else none
        | none => none
      if targets.isEmpty then fallback else targets

end ClassHierarchy

end CodeAtlas

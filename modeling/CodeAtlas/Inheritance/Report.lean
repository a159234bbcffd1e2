import CodeAtlas.Session

/-!
# Reports on inheritance

Classes with their bases, virtual methods, what overrides what, calls that may reach several
methods, and counts of all that.

A chain of overriding methods starts with a virtual method that overrides nothing and goes on from
each method to one that overrides it, up to a method that nothing overrides. No method stands in a
chain twice.
-/

namespace CodeAtlas.Inheritance

open Run Text

def overriders (fs : Functions) (method : String) : List String :=
  (fs.filter fun (_, f) => f.overrides.contains method).map (·.1)

/-- All chains that go on from a method. The methods before it are `before`, the latest first. -/
def chainsFrom (fs : Functions) : Nat → List String → String → List (List String)
  | 0, _, _ => []
  | fuel + 1, before, method =>
    let chain := method :: before
    match overriders fs method with
    | [] => [chain.reverse]
    | next =>
      (next.filter fun name => !chain.contains name).flatMap (chainsFrom fs fuel chain)

def methodName (name : String) : String := (split name "::").getLastD name

def virtualByName (fs : Functions) : Dict (List String) :=
  fs.foldl (fun d (_, f) => if f.isVirtual then Dict.push d (methodName f.name) f.name else d) []

def baseMethods (fs : Functions) (names : List String) : Except Fault (List String) :=
  names.filterM fun name =>
    match fs.get? name with
    | some f => .ok f.overrides.isEmpty
    | none => .error (.missingKey name)

def overrideChains (fs : Functions) : Except Fault (Dict (List (List String))) := do
  let found ← (virtualByName fs).mapM fun (name, methods) => do
    -- a chain has no repetitions, so the number of functions bounds its length
    return (name, (← baseMethods fs methods).flatMap (chainsFrom fs (fs.length + 1) []))
  return found.filter fun (_, chains) => !chains.isEmpty

/-! ### Calls and counts -/

/-- A call of a virtual method from outside of its class. -/
structure OpenCall where
  caller : String
  callee : String
  fromMethod : Bool
  className : String
deriving Repr, DecidableEq

structure Summary where
  file : String
  names : List String
  bases : Dict (List String)
  virtualMethods : Dict (List String)
  overrides : List (String × String)
  openCalls : List OpenCall
  metrics : Dict Json
  chains : Dict (List (List String))
deriving Repr

def basesOf (fs : Functions) : Dict (List String) :=
  fs.foldl (fun d (_, f) =>
    if f.isMember && !f.className.isEmpty && !f.classHierarchy.isEmpty && !d.has f.className then
      Dict.set d f.className f.classHierarchy
    else d) []

def virtualMethodsOf (fs : Functions) : Dict (List String) :=
  fs.foldl (fun d (name, f) => if f.isVirtual then Dict.push d f.className name else d) []

def overridesOf (fs : Functions) : List (String × String) :=
  fs.flatMap fun (name, f) => if f.isVirtual then f.overrides.map fun base => (name, base) else []

/-- The calls of virtual methods by known functions that are not methods of the same class. -/
def openCallsOf (fs : Functions) : List OpenCall :=
  fs.flatMap fun (name, f) =>
    if f.isVirtual then
      f.calledBy.filterMap fun caller =>
        match fs.get? caller with
        | none => none
        | some c =>
          if c.isMember && c.className == f.className then none
          else some { caller, callee := name, fromMethod := c.isMember, className := f.className }
    else []

def metricsOf (fs : Functions) (bases : Dict (List String)) : Dict Json :=
  let virtual := fs.values.filter Function.isVirtual
  let classes := (sortedSet ((fs.values.filter Function.isMember).map Function.className)).length
  let count := fun (n : Nat) => Json.int n
  [("total_virtual_methods", count virtual.length),
   ("total_classes", count classes),
   ("classes_with_virtual_methods", count (sortedSet (virtual.map Function.className)).length),
   ("average_virtual_methods_per_class",
    .float (Float.ofNat virtual.length / Float.ofNat (max 1 classes))),
   ("max_inheritance_depth", count ((bases.values.map List.length).foldl max 0)),
   ("classes_with_multiple_inheritance", count (bases.values.countP (1 < ·.length))),
   ("total_override_relationships", count ((fs.values.map (·.overrides.length)).foldl (· + ·) 0))]

/-- The inheritance in a graph; without functions it is not worked out. -/
def Summary.ofGraph? (file : String) (g : CallGraph) : Except Fault (Option Summary) := do
  if g.functions.isEmpty then return none
  else
    let bases := basesOf g.functions
    return some
      { file, bases, names := g.functions.keys
        virtualMethods := virtualMethodsOf g.functions
        overrides := overridesOf g.functions
        openCalls := openCallsOf g.functions
        metrics := metricsOf g.functions bases
        chains := ← overrideChains g.functions }

def Summary.multiple (i : Summary) : Dict (List String) := i.bases.filter (1 < ·.2.length)

/-- The inheritance as data; `table` says how a table is written. -/
def Summary.toJson (table : Dict Json → Json) (i : Summary) : Json :=
  let lists := fun (d : Dict (List String)) => table (d.map fun (k, l) => (k, .ofStrings l))
  .obj
    [("file_path", .str i.file),
     ("total_functions", .int i.names.length),
     ("function_names", .ofStrings i.names),
     ("class_hierarchy", lists i.bases),
     ("virtual_methods", lists i.virtualMethods),
     ("override_relationships", .arr (i.overrides.map fun (a, b) =>
       .obj [("derived", .str a), ("base", .str b)])),
     ("polymorphic_calls", .arr (i.openCalls.map fun c =>
       .obj [("caller", .str c.caller), ("callee", .str c.callee),
         ("caller_type", .str (if c.fromMethod then "method" else "function")),
         ("callee_class", .str c.className)])),
     ("virtual_method_metrics", table i.metrics),
     ("override_chains", table (i.chains.map fun (k, l) => (k, .arr (l.map .ofStrings)))),
     ("multiple_inheritance", .arr (i.multiple.map fun (name, bases) =>
       .obj [("class", .str name), ("base_classes", .ofStrings bases)]))]

def sectionLines (title none : String) (lines : List String) : List String :=
  ("\n=== " ++ title ++ " ===") :: (if lines.isEmpty then [none] else lines)

def chainLines (name : String) (chains : List (List String)) : List String :=
  ("Method '" ++ name ++ "' override chains:") ::
    (chains.zip (List.range chains.length)).map fun (chain, n) =>
      "  Chain " ++ toString (n + 1) ++ ": " ++ join " -> " chain

def Summary.lines (i : Summary) : List String :=
  ["\n===== CLASS HIERARCHY ANALYSIS RESULTS =====\n"] ++
  sectionLines "CLASS HIERARCHY" "No class hierarchies detected." (i.bases.map fun (name, bases) =>
    name ++ " derives from: " ++ join ", " bases) ++
  sectionLines "VIRTUAL METHODS" "No virtual methods detected."
    (i.virtualMethods.flatMap fun (name, methods) =>
      ("Class " ++ name ++ " has " ++ toString methods.length ++ " virtual methods:") ::
        methods.map ("  - " ++ ·)) ++
  sectionLines "METHOD OVERRIDES" "No override relationships detected."
    (i.overrides.map fun (a, b) => a ++ " overrides " ++ b) ++
  sectionLines "MULTIPLE INHERITANCE" "No multiple inheritance detected."
    (i.multiple.map fun (name, bases) =>
      name ++ " inherits from multiple base classes: " ++ join ", " bases) ++
  sectionLines "POLYMORPHIC FUNCTION CALLS" "No polymorphic calls detected."
    (i.openCalls.map fun c => "Polymorphic call: " ++ c.caller ++ " calls " ++ c.callee) ++
  sectionLines "OVERRIDE CHAINS" "No override chains detected."
    (i.chains.flatMap fun (name, chains) => chainLines name chains) ++
  sectionLines "VIRTUAL METHOD METRICS" "No metrics calculated."
    (i.metrics.map fun (name, value) => name ++ ": " ++ value.shown)

end CodeAtlas.Inheritance

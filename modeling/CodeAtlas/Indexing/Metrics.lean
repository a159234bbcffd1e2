import CodeAtlas.Resolution.Basic
import CodeAtlas.Session

/-!
# Metrics of an indexing

What an indexing run reports about itself: counts, features, and the time and memory used, which
are those of the session's fixed clock.
-/

namespace CodeAtlas.Indexing

def clockTime : String := "2024-01-02T03:04:05"

def clockStamp : String := "20240102_030405"

def memoryInUse : Json := .float 64.0

def nothing : Json := .float 0.0

structure FeatureCounts where
  templates : Nat := 0
  virtualMethods : Nat := 0
  scopes : List Json := []
  classes : List Json := []

/-- Adds a value to a list without repetitions. Lists and objects are no values. -/
def addValue (l : List Json) (j : Json) : Except Fault (List Json) :=
  match j with
  | .arr _ | .obj _ => .error (.wrongShape ("unhashable type: '" ++ j.kindName ++ "'"))
  | j => .ok (if l.contains j then l else l ++ [j])

def FeatureCounts.add (c : FeatureCounts) (f : Function) : Except Fault FeatureCounts := do
  let data ← Resolution.metadataOf f
  let c := if data.has "template" then { c with templates := c.templates + 1 } else c
  let c :=
    if ((data.get? "virtual").getD .null).truthy then
      { c with virtualMethods := c.virtualMethods + 1 }
    else c
  let classes ← match data.get? "class" with
    | some j => addValue c.classes j
    | none => pure c.classes
  let scopes ← match data.get? "namespace" with
    | some j => addValue c.scopes j
    | none => pure c.scopes
  return { c with classes, scopes }

def callCount (g : CallGraph) : Nat := g.functions.foldl (fun n (_, f) => n + f.calls.length) 0

def fileMetrics (path : String) (g : CallGraph) : Except Fault Json := do
  let c ← g.functions.foldlM (fun (c : FeatureCounts) (_, f) => c.add f) {}
  return .obj
    [("file_path", .str path), ("analysis_time", nothing), ("memory_delta_mb", nothing),
     ("functions_count", .int g.functions.length),
     ("missing_functions_count", .int g.missing.length),
     ("call_relationships", .int (callCount g)),
     ("cpp_features", .obj
       [("templates", .int c.templates), ("virtual_methods", .int c.virtualMethods),
        ("namespaces", .int c.scopes.length), ("classes", .int c.classes.length)])]

def runMetrics (platform : String) (files : Nat) (g : CallGraph) (perFile : List Json) : Json :=
  .obj
    [("start_time", .str clockTime), ("end_time", .str clockTime),
     ("total_duration_seconds", nothing),
     ("files_analyzed", .int files), ("functions_found", .int g.functions.length),
     ("call_relationships", .int (callCount g)), ("memory_usage_mb", memoryInUse),
     ("file_metrics", .arr perFile),
     ("system_info", .obj
       [("platform", .str platform), ("processor", .str "cpu"), ("python_version", .str "3")])]

end CodeAtlas.Indexing

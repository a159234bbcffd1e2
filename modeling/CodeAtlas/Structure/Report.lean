import CodeAtlas.Session
import CodeAtlas.Structure.Basic

/-!
# Reports on the structure of a code base

The structure as data and as text.
-/

namespace CodeAtlas.Structure

open Run

def Call.toJson (c : Call) : Json :=
  .obj [("caller", .str c.caller), ("callee", .str c.callee),
    ("caller_file", .str c.callerFile), ("callee_file", .str c.calleeFile)]

def usedJson (name : String) (f : Function) : Json :=
  .obj [("name", .str name), ("called_by_count", .int f.calledBy.length),
    ("file_path", .str f.filePath), ("callers", .ofStrings f.calledBy)]

/-- The structure as data; `table` says how a table is written. -/
def CodeStructure.toJson (table : Dict Json → Json) (s : CodeStructure) : Json :=
  let lists := fun (d : Dict (List String)) => table (d.map fun (k, l) => (k, .ofStrings l))
  .obj
    [("total_functions", .int s.names.length),
     ("function_names", .ofStrings s.names),
     ("function_by_file", lists s.byFile),
     ("module_dependencies", lists s.dependencies),
     ("function_call_relationships", .arr (s.calls.map Call.toJson)),
     ("heavily_used_functions", .arr (s.heavilyUsed.map fun (n, f) => usedJson n f)),
     ("call_tree_depths", table (s.depths.map fun (k, n) => (k, .int n))),
     ("external_dependencies", .ofStrings s.outside),
     ("missing_functions", .ofStrings s.missing)]

def sectionLines (title none : String) (lines : List String) : List String :=
  ("\n=== " ++ title ++ " ===") :: (if lines.isEmpty && !none.isEmpty then [none] else lines)

def dependencyLine (file : String) (used : List String) : String :=
  file ++ " depends on: " ++ Text.join ", " (used.take 3) ++ (if used.length > 3 then "..." else "")

def usedLine (name : String) (f : Function) : String :=
  name ++ " (from " ++ Path.baseName f.filePath ++ ") - called by " ++
    toString f.calledBy.length ++ " functions"

def greatest {α : Type} (number : α → Nat) (l : List α) : List α :=
  (l.mergeSort fun a b => number b ≤ number a).take 5

def CodeStructure.lines (s : CodeStructure) : List String :=
  ["\n===== C CODE ANALYSIS RESULTS =====\n",
   "Total functions: " ++ toString s.names.length,
   "Missing function references: " ++ toString s.missing.length] ++
  sectionLines "FILES AND FUNCTION COUNTS" ""
    ((greatest (fun (_, l) => l.length) s.byFile).map fun (file, l) =>
    file ++ ": " ++ toString l.length ++ " functions") ++
  sectionLines "MODULE DEPENDENCIES" "No module dependencies detected."
    ((s.dependencies.take 5).map fun (file, used) => dependencyLine file used) ++
  sectionLines "HEAVILY USED FUNCTIONS" "No heavily used functions detected."
    ((s.heavilyUsed.take 5).map fun (name, f) => usedLine name f) ++
  sectionLines "DEEPEST CALL TREES" "" ((greatest (fun (_, n) => n) s.depths).map fun (name, n) =>
    name ++ " - call depth: " ++ toString n) ++
  sectionLines "EXTERNAL DEPENDENCIES" "No external dependencies detected."
    (s.outside.map ("- " ++ ·))

def CodeStructure.print (s : CodeStructure) : Run Unit := s.lines.forM say

end CodeAtlas.Structure

import CodeAtlas.CodeIndex.Basic

/-!
# The tools of the index server

A server offers the index of a project by named tools with parameters.
-/

namespace CodeAtlas.CodeIndex

open Run

/-- A parameter of a tool, with its default if it has one. -/
abbrev ToolParam := String × Option Json

def bindArgs : List ToolParam → List Json → Except Fault (List Json)
  | [], [] => .ok []
  | [], _ :: _ => .error (.wrongShape "too many arguments")
  | _ :: ps, a :: args => do return a :: (← bindArgs ps args)
  | (_, some d) :: ps, [] => do return d :: (← bindArgs ps [])
  | (name, none) :: _, [] => .error (.wrongShape ("missing argument: " ++ name))

structure Server where
  index : Option CodeIndex := none

namespace Server

def name : String := "code-indexer"

def tools : List (String × List ToolParam) :=
  let direction := ("direction", some (.str "both"))
  let depth := ("depth", some (.int 5))
  [("index_project", [("project_dir", none)]),
   ("get_call_chain", [("function", none), ("project", none), direction, depth]),
   ("semantic_search", [("query", none), ("topk", some (.int 5))]),
   ("describe_call_chain",
     [("description", none), ("project", none), direction, depth, ("topk", some (.int 3))])]

/-- Takes in a project. The new index stays also if the project cannot be read. -/
def indexProject (dir : String) : Run (Except Fault Json × Server) := do
  let x ← start
  match ← attempt (x.build dir) with
  | .ok x => return (.ok (.str s!"Indexed {x.functions.length} functions in {dir}"), ⟨some x⟩)
  | .error e => return (.error e, ⟨some x⟩)

def callChain (function project direction depth : Json) : Run Json := do
  return (← ask? "query_call_chain" [function, project, direction, depth]).getD .null

def search (s : Server) (query limit : Json) : Run (List Json) := do
  match s.index with
  | none => return []
  | some x => x.search query limit

def describe (s : Server) (description project direction depth limit : Json) : Run (List Json) := do
  (← s.search description limit).mapM fun f => do
    let chain ← callChain (f.field "function") project direction depth
    return .obj [("entry_function", f), ("call_chain", chain)]

def use (s : Server) (tool : String) (args : List Json) : Run (Except Fault Json × Server) := do
  match tool, args with
  | "index_project", [dir] => indexProject dir.text
  | "get_call_chain", [f, p, d, n] => return (← attempt (callChain f p d n), s)
  | "semantic_search", [q, k] => return (← attempt (.arr <$> s.search q k), s)
  | "describe_call_chain", [t, p, d, n, k] => return (← attempt (.arr <$> s.describe t p d n k), s)
  | _, _ => return (.error (.missingPart tool), s)

def useTool (s : Server) (tool : String) (args : List Json) : Run (Except Fault Json × Server) := do
  match tools.lookup tool with
  | none => return (.error (.missingKey tool), s)
  | some params =>
    match bindArgs params args with
    | .ok args => s.use tool args
    | .error e => return (.error e, s)

def useService (s : Server) (method : String) (args : List Json) :
    Run (Except Fault Json × Server) := do
  match tools.lookup method with
  | none => return (.error (.missingPart method), s)
  | some params =>
    match bindArgs (params.map fun (p, _) => (p, none)) args with
    | .ok args => s.use method args
    | .error e => return (.error e, s)

end Server

end CodeAtlas.CodeIndex

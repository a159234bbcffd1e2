import CodeAtlas.CodeIndex.Tools

/-!
# Workloads on sources

Work of a given size on source files, for measuring. The files stand in a directory of their own,
which is gone when the work is done. Each workload gives a row of counts and names.
-/

namespace CodeAtlas.Workload

open Run

def withFiles {α : Type} (files : List (String × String)) (step : String → Run α) : Run α := do
  let before ← tree
  let dir := Path.join before.root "t1"
  setTree (files.foldl (fun t (name, text) => t.addFile (Path.join dir name) (Text.encodeUtf8 text))
    (before.addDir dir))
  andFinally (step dir) (setTree before)

def numbered {α : Type} (size : Nat) (f : String → α) : List α :=
  (List.range size).map fun i => f (toString i)

def count (n : Nat) : Json := .int n

def nestedSource (i : String) : String :=
  Text.join "\n"
    ["class K_" ++ i ++ ":", "    pass", "", "def outer_" ++ i ++ "():",
     "    async def ainner_" ++ i ++ "():", "        pass", "    return ainner_" ++ i, ""]

/-- Finding, reading and parsing files: how many are found, their endings, how many can be read,
how many hold definitions, and the names defined. -/
def files (size : Nat) : Run Json :=
  withFiles ((numbered size fun i => [("m_" ++ i ++ ".py", nestedSource i),
      ("c_" ++ i ++ ".c", "int c_" ++ i ++ "(void);\n")]).flatten) fun dir => do
    let found ← lift (Files.findFiles (← tree) dir "*.py,*.c")
    let texts ← found.mapM Files.readContent
    let sources ← Embedding.sourceFiles dir
    let blocks ← sources.mapM Embedding.blocksOf
    return .arr [count found.length, .ofSet (found.map Path.extension), count texts.length,
      count sources.length, .ofSet (blocks.flatten.map (·.name))]

def callingSource (i : String) : String :=
  Text.join "\n"
    ["def f_" ++ i ++ "(x):", "    return g_" ++ i ++ "(x) + h_" ++ i ++ "(x)", "",
     "def g_" ++ i ++ "(x):", "    return x", "", "def h_" ++ i ++ "(x):", "    return x", ""]

/-- Indexing functions: their names, what the first one calls, how many of three answers a search
finds, the number of tools and of functions. In the search all distances are equal. -/
def codeIndex (size : Nat) : Run Json :=
  withFiles (numbered size fun i => ("m_" ++ i ++ ".py", callingSource i)) fun dir => do
    let x ← (← CodeIndex.start).build dir
    modify fun w =>
      { w with hits := (List.range x.functions.length).map fun i => (0.0, Int.ofNat i) }
    let hits ← x.search (.str "x") (.int 3)
    return .arr [.ofSet x.functions.keys, .ofSet (x.links.links "f_0").callees, count hits.length,
      count CodeIndex.Server.tools.length, count x.functions.length]

end CodeAtlas.Workload

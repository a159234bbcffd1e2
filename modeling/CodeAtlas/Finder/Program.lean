import CodeAtlas.Finder.Report
import CodeAtlas.Finder.Store

/-!
# The finder program

Looks whether a code base already has what is about to be written.
-/

namespace CodeAtlas.Finder

open Run Text CommandLine

def finderGrammar : CommandLine.Grammar :=
  simple
    [{ key := "description", arity := .optional },
     option "dir" ["--dir", "-d"] (.str "."),
     option "extensions" ["--extensions", "-e"] (.str ".c,.h,.cpp,.hpp,.py,.js,.ts,.java"),
     number "limit" ["--limit", "-l"] (.int 5),
     option "find_calls" ["--find-calls", "-f"] .null,
     option "call_chain" ["--call-chain", "-c"] .null,
     number "max_depth" ["--max-depth", "-m"] (.int 3),
     flag "use_graph_db" ["--use-graph-db", "-g"],
     option "graph_uri" ["--graph-uri"] (.str "bolt://localhost:7687"),
     option "graph_user" ["--graph-user"] (.str "neo4j"),
     option "graph_password" ["--graph-password"] (.str "password"),
     option "export" ["--export", "-o"] .null,
     { key := "export_format", names := ["--export-format"], choices := ["txt", "md", "json"]
       default := .str "md" },
     flag "full_chain" ["--full-chain"],
     flag "build_graph" ["--build-graph"],
     flag "clear_graph" ["--clear-graph"]]

def sayMissingLibrary : Run Unit := do
  say "错误: 请先安装py2neo库以使用图数据库功能"
  say "      pip install py2neo"

def runBuild (args : Dict Json) (endings : List String) : Run Unit := do
  if !(← get).graphLibrary then sayMissingLibrary
  else
    let dir := textOf args "dir"
    orElse (do
      say ("开始构建函数调用关系图数据库，分析目录: " ++ dir)
      buildGraph dir endings (isOn args "clear_graph")
      say "图数据库构建完成!") fun e => say ("构建图数据库时出错: " ++ e.message)

def sayPaths (title : String) (paths : List Row) : Run Unit := do
  if !paths.isEmpty then
    say (title ++ " (共 " ++ toString paths.length ++ " 条):")
    (List.range paths.length).forM fun n => say ("  路径 " ++ toString (n + 1) ++ ":")

def withBodies (bodies : List (Json × String)) (all : Dict Row) (related : List Row) : Dict Row :=
  related.foldl (fun all row =>
    let id := (Dict.get? row "id").getD .null
    match if id.truthy then bodies.find? (·.1 == id) else none with
    | some (_, body) => Dict.set all id.shown (Dict.set row "body" (.str body))
    | none => all) all

def runStoredChains (args : Dict Json) (names : List String) : Run Unit := do
  openGraph
  let chains ← storedPathsOf names (numberOf args "max_depth")
  let ids := chains.values.flatMap fun c => c.related.filterMap (Dict.get? · "id")
  let bodies ← storedBodies ids
  let all ← chains.foldlM (fun all (name, chain) => do
    say ("\n\n函数 " ++ name ++ " 的调用链:")
    sayPaths "上游调用链" chain.inward
    sayPaths "下游调用链" chain.outward
    return withBodies bodies all chain.related) []
  match text? args "export" with
  | none | some "" => return
  | some path =>
    if all.isEmpty then say "警告: 未找到任何函数定义，无法导出"
    else
      exportFunctions all path (textOf args "export_format")
      say ("\n已导出 " ++ toString all.length ++ " 个函数到文件 " ++ path)

def runChains (args : Dict Json) (written : String) : Run Unit := do
  let names := (split written ",").map strip
  say ("查找函数 " ++ join ", " names ++ " 的调用链...")
  if !isOn args "use_graph_db" then
    say "错误: 您必须使用 --use-graph-db 参数来查询函数调用链"
    say "提示: 先使用 --build-graph 构建图数据库，然后使用 --use-graph-db 查询"
  else if !(← get).graphLibrary then sayMissingLibrary
  else
    orElse (runStoredChains args names) fun e => do
      say ("连接图数据库时出错: " ++ e.message)
      say "请确保Neo4j服务正在运行且可以访问"

def showHits (hits : List Hit) : Run Unit :=
  (hits.zip (List.range hits.length)).forM fun (h, n) => do
    say ("\n[结果 " ++ toString (n + 1) ++ "/" ++ toString hits.length ++ "]")
    display h.toRow true
    if n + 1 < hits.length then let _ ← ask "按回车键查看下一个结果..."

def runCalls (base : CodeBase) (dir function : String) (limit : Int) : Run Unit := do
  say ("在 " ++ dir ++ " 中搜索调用 '" ++ function ++ "' 的函数...")
  let hits := base.callersOf function limit
  if hits.isEmpty then say ("\n未找到调用 '" ++ function ++ "' 的函数。")
  else
    say ("\n找到 " ++ toString hits.length ++ " 个调用 '" ++ function ++ "' 的函数:")
    showHits hits

def runSearch (base : CodeBase) (dir description : String) (limit : Int) : Run Unit := do
  let words := keywords description
  say ("搜索关键词: " ++ join ", " words)
  say ("在 " ++ dir ++ " 中搜索匹配 '" ++ description ++ "' 的函数...")
  let hits := base.search words limit
  if hits.isEmpty then say "\n未找到匹配的函数。可能需要实现该功能。"
  else
    say ("\n找到 " ++ toString hits.length ++ " 个可能相关的函数:")
    showHits hits

def finderMain (words : List String) : Run Unit := do
  let args ← commandLine finderGrammar words
  let dir := textOf args "dir"
  let limit := numberOf args "limit"
  let endings := split (textOf args "extensions") ","
  let chain := textOf args "call_chain"
  let calls := textOf args "find_calls"
  let description := textOf args "description"
  if isOn args "build_graph" then runBuild args endings
  else if !chain.isEmpty then runChains args chain
  else if description.isEmpty && calls.isEmpty then throw (.exit 2)
  else
    let base := CodeBase.ofTree (← tree) dir endings
    if !calls.isEmpty then runCalls base dir calls limit
    else runSearch base dir description limit

end CodeAtlas.Finder

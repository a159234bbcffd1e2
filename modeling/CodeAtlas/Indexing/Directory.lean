import CodeAtlas.Analysis.File
import CodeAtlas.FrontEnd.Start

/-!
# Indexing directories

Two programs that analyse a directory and store its graph: one takes all files, the other one only
those that changed.
-/

namespace CodeAtlas.Indexing

open Run CommandLine

def directoryParameters : List CommandLine.Parameter :=
  [positional "directory",
   option "project" ["--project", "-p"] (.str "default"),
   number "workers" ["--workers", "-w"] (.int 4),
   several "extensions" ["--extensions", "-e"]]

def directoryGrammar : CommandLine.Grammar :=
  simple (flag "clear" ["--clear", "-c"] :: directoryParameters)

def changesGrammar : CommandLine.Grammar := simple directoryParameters

def prepare : Run Unit := do
  say "配置libclang..."
  discard FrontEnd.configure
  say "初始化分析器服务..."
  say "连接到Neo4j数据库..."
  connect

def sayFeatureCounts (g : CallGraph) : Run Unit := do
  let count := fun (p : Function → Bool) => toString (g.functions.countP fun (_, f) => p f)
  say ("模板函数: " ++ count (·.isTemplate))
  say ("模板元函数: " ++ count (·.isMetafunction))
  say ("使用SFINAE的函数: " ++ count (·.hasSfinae))
  say ("变参模板: " ++ count (·.hasVariadic))

def askedSuffixes (args : Dict Json) : List String :=
  (texts? args "extensions").getD Analysis.defaultSuffixes

def indexAll (args : Dict Json) (dir project : String) : Run CallGraph := do
  prepare
  if isOn args "clear" then
    say ("清除项目 '" ++ project ++ "' 的现有数据...")
    call "clear_project" [.str project]
  say ("开始分析目录: " ++ dir)
  Analysis.requireDirectories
  let g ← Analysis.analyzeDirectory dir (askedSuffixes args) true
  say "\n分析完成! 用时: 0.00 秒"
  say ("发现 " ++ toString g.functions.length ++ " 个函数:")
  sayFeatureCounts g
  say "\n将数据存储到Neo4j..."
  callWith "index_call_graph" g [.str project, .bool false]
  say "数据存储完成! 用时: 0.00 秒"
  return g

def mostCalled (g : CallGraph) : List Function :=
  ((g.functions.values.mergeSort fun a b => b.calledBy.length ≤ a.calledBy.length).take 10).filter
    (!·.calledBy.isEmpty)

def onDirectory (args : Dict Json) (body : String → String → Run Unit) : Run Int := do
  let dir := textOf args "directory"
  if !(← tree).isDir dir then
    say ("错误: 目录 '" ++ dir ++ "' 不存在")
    return 1
  else
    body dir (textOf args "project")
    return 0

def directoryMain (words : List String) : Run Int := do
  let args ← commandLine directoryGrammar words
  onDirectory args fun dir project => do
    let g ← indexAll args dir project
    say "\n=== 索引摘要 ==="
    say ("项目名称: " ++ dir)
    say ("索引的函数总数: " ++ toString g.functions.length)
    say ("缺失的函数引用: " ++ toString g.missing.length)
    if !g.functions.isEmpty then
      say "\n最常被调用的函数 (Top 10):"
      (mostCalled g).forM fun f =>
        say ("  - " ++ f.name ++ ": 被调用 " ++ toString f.calledBy.length ++ " 次")

def indexChanges (args : Dict Json) (dir project : String) : Run CallGraph := do
  prepare
  say ("开始增量分析目录: " ++ dir)
  Analysis.requireDirectories
  let (g, changed) ← Analysis.analyzeChanged dir project (askedSuffixes args) true
  say "\n增量分析完成! 用时: 0.00 秒"
  say ("处理了 " ++ toString changed.length ++ " 个已更改的文件")
  say ("发现 " ++ toString g.functions.length ++ " 个已更改的函数:")
  sayFeatureCounts g
  if changed.isEmpty then say "没有发现需要更新的文件，不需要更新Neo4j数据库。"
  else
    say "\n更新Neo4j数据库..."
    changed.forM fun file => call "delete_functions_by_file" [.str file, .str project]
    callWith "index_call_graph" g [.str project, .bool false]
    say "数据更新完成! 用时: 0.00 秒"
  return g

def changesMain (words : List String) : Run Int := do
  let args ← commandLine changesGrammar words
  onDirectory args fun dir project => do
    let g ← indexChanges args dir project
    say "\n=== 增量索引摘要 ==="
    say ("项目名称: " ++ project)
    say ("更新的函数总数: " ++ toString g.functions.length)
    say ("新增的缺失函数引用: " ++ toString g.missing.length)

end CodeAtlas.Indexing

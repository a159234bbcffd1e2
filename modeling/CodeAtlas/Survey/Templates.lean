import CodeAtlas.Analysis.File
import CodeAtlas.FrontEnd.Start

/-!
# A survey of templates

Analyses the files of one directory and shows which of their functions are templates, compute at
compile time, rely on substitution failure or have a parameter pack.
-/

namespace CodeAtlas.Survey

open Run

def countOf (g : CallGraph) (p : Function → Bool) : Nat := g.functions.countP fun (_, f) => p f

def countedFeatures : List (String × (Function → Bool)) :=
  [("模板元函数", Function.isMetafunction), ("使用SFINAE的函数", Function.hasSfinae),
   ("变参模板", Function.hasVariadic)]

def templateLines (f : Function) : List String :=
  let list := fun (title : String) (l : List String) =>
    if l.isEmpty then [] else ["      " ++ title ++ ": " ++ Text.join ", " l]
  (if f.isTemplate then "      模板: 是" :: list "模板参数" f.templateParams else []) ++
  (if f.isMetafunction then ["      元函数: 是 (类型: " ++ f.metafunctionKind ++ ")"] else []) ++
  (if f.hasSfinae then "      SFINAE: 是" :: list "SFINAE技术" f.sfinaeTechniques else []) ++
  (if f.hasVariadic then
    "      变参模板: 是" :: (if f.variadicParam.isEmpty then [] else ["      参数包: " ++ f.variadicParam])
  else [])

def showTemplates (path : String) : Run CallGraph := do
  say ("\n分析文件: " ++ path)
  let g ← Analysis.analyze path none []
  say ("  发现 " ++ toString g.functions.length ++ " 个函数/类:")
  countedFeatures.forM fun (title, p) => say ("  " ++ title ++ ": " ++ toString (countOf g p))
  (Text.sorted g.functions.keys).forM fun name => do
    say ("    - " ++ name)
    match g.functions.get? name with
    | some f => (templateLines f).forM say
    | none => return
  return g

def sayTotals (graphs : List CallGraph) : Run Unit := do
  let total := fun (count : CallGraph → Nat) => toString ((graphs.map count).foldl (· + ·) 0)
  say "\n=== 总结 ==="
  say ("总共分析文件: " ++ toString graphs.length)
  say ("总函数/类数量: " ++ total (·.functions.length))
  countedFeatures.forM fun (title, p) => say (title ++ "总数: " ++ total (countOf · p))

def templates : Run Unit := do
  say "\n=== C++模板元编程特性分析 ===\n"
  say "配置libclang..."
  discard FrontEnd.configure
  say "初始化分析器服务..."
  let t ← tree
  let dir := Path.join t.root "test_files"
  let names := (← lift (t.names dir)).filter (Text.endsWithAny · [".cpp", ".cc", ".h", ".hpp"])
  if names.isEmpty then say ("错误: " ++ dir ++ " 目录中没有找到C++文件")
  else
    let files := names.map (Path.join dir)
    say ("发现 " ++ toString files.length ++ " 个C++文件:")
    files.forM fun file => say ("  - " ++ file)
    sayTotals (← files.mapM showTemplates)

end CodeAtlas.Survey

import CodeAtlas.Description.Related

/-!
# The description program

Finds the function that a description means and shows what is around it.
-/

namespace CodeAtlas.Description

open Run CommandLine

def part (f : Row) (key : String) : Json := (Dict.get? f key).getD .null

def sayPlace (indent : String) (f : Row) : Run Unit := do
  if (part f "file_path").truthy then
    say (indent ++ "文件: " ++ (part f "file_path").shown ++ ", 行号: " ++
      ((Dict.get? f "line_number").getD (.int 0)).shown)
  if (part f "signature").truthy then say (indent ++ "签名: " ++ (part f "signature").shown)

def choose (first : Row) (all : List Row) : Run Row := do
  if all.length ≤ 1 then return first
  else
    let chosen ← ask "请选择要分析的函数编号 (直接回车选择第一个): "
    if Text.allDigits chosen then
      match Text.readInt? chosen with
      | some n => return if 1 ≤ n then (all[n.toNat - 1]?).getD first else first
      | none =>
        throw (.badValue ("invalid literal for int() with base 10: " ++ Text.literal chosen))
    else return first

def chooseByWords (description project : String) (language : Language) : Run (Option Row) := do
  say "未找到匹配函数，尝试语义搜索..."
  let found ← searchWords description (.str project) language (.int 10)
  match found with
  | [] =>
    say "语义搜索也未找到结果。"
    return none
  | first :: _ =>
    say ("通过语义搜索找到 " ++ toString found.length ++ " 个相关函数:")
    (found.zip (List.range found.length)).forM fun (f, n) => do
      say (toString (n + 1) ++ ". " ++ (← Row.column f "name").shown ++ " (相关度: " ++
        ((Dict.get? f "relevance").getD (.int 0)).shown ++ ")")
      sayPlace "   " f
    return some (← choose first found)

def sayGroup (title : String) (functions : List Row) : Run Unit := do
  if !functions.isEmpty then
    say ("\n" ++ title)
    functions.forM fun f => do
      say ("  - " ++ (← Row.column f "name").shown ++ " (" ++
        ((Dict.get? f "file_path").getD (.str "")).shown ++ ")")

def sayRelated (r : Related) : Run Unit := do
  sayGroup "调用此函数的函数:" r.callers
  if r.callers.isEmpty then say "\n无调用此函数的函数"
  sayGroup "此函数调用的函数:" r.callees
  if r.callees.isEmpty then say "\n此函数未调用其他函数"
  sayGroup "此函数特化自:" r.specializes
  sayGroup "此模板函数的特化版本:" r.specializedBy
  sayGroup "此函数覆盖的基类方法:" r.overrides
  sayGroup "覆盖此函数的派生类方法:" r.overriddenBy

def longerText (body : String) (details : Json) : Except Fault Json := do
  match details.get? "body" with
  | some stored =>
    if stored.truthy && Text.size body < (← stored.size) then return stored
    else return .str body
  | none => return .str body

def sayText (f : Row) (name : Json) (project : String) : Run Unit := do
  say "\n函数体:"
  let path := part f "file_path"
  let line := part f "line_number"
  if path.truthy && line.truthy then
    let body ← functionText path.shown line
    let details := (← ask? "find_function" [name, .str project]).getD .null
    say (← lift (longerText body details)).shown
  else say "无法获取函数体 - 缺少文件路径或行号信息"

def analyze (description project : String) (language : Language) : Run Unit := do
  connect
  let text ← generateQuery description project language
  say ("执行查询: " ++ text)
  let found ← match ← query text [] with
    | [] => chooseByWords description project language
    | row :: _ => do
      let f ← match ← Row.column row "f" with
        | .obj f => pure f
        | j => throw (.wrongShape ("'" ++ j.kindName ++ "' object is not subscriptable"))
      say ("找到函数: " ++ (← Row.column f "name").shown)
      sayPlace "" f
      pure (some f)
  match found with
  | none => return
  | some f =>
    if (part f "is_virtual").truthy then say "特性: 虚函数"
    if (part f "is_template").truthy then say "特性: 模板函数"
    let name ← Row.column f "name"
    say "\n函数关系分析:"
    sayRelated (← relatedFunctions name (.str project) "both" (.int 1))
    sayText f name project
    call "close" []

def descriptionGrammar : CommandLine.Grammar :=
  simple
    [positional "description",
     option "project" ["--project"] (.str "default"),
     option "neo4j_uri" ["--neo4j-uri"] (.str "bolt://localhost:7688"),
     option "neo4j_user" ["--neo4j-user"] (.str "neo4j"),
     option "neo4j_password" ["--neo4j-password"] (.str "password"),
     { key := "language", names := ["--language"], choices := ["zh", "en"], default := .str "zh" }]

def descriptionMain (words : List String) : Run Unit := do
  let args ← commandLine descriptionGrammar words
  analyze (textOf args "description") (textOf args "project")
    (.ofName (textOf args "language"))

end CodeAtlas.Description

import CodeAtlas.Survey.Basic

/-!
# Survey of calls

The functions that are called most or call most, and the calls around one function.
-/

namespace CodeAtlas.Survey

open Run CommandLine

def mostQuery (pattern counted : String) : String :=
  Text.block 16
    ["MATCH " ++ pattern,
     "WITH function, count(r) AS " ++ counted,
     "ORDER BY " ++ counted ++ " DESC",
     "LIMIT $limit",
     "RETURN function.name AS name, function.signature AS signature, ",
     "       function.file_path AS file_path, " ++ counted]

def mostCalledQuery : String :=
  mostQuery ("(caller:Function \x7bproject: $project\x7d)-[r:CALLS]->" ++
    "(function:Function \x7bproject: $project\x7d)") "call_count"

def mostCallingQuery : String :=
  mostQuery ("(function:Function \x7bproject: $project\x7d)-[r:CALLS]->" ++
    "(called:Function \x7bproject: $project\x7d)") "calls_count"

def oneFunctionQuery : String :=
  Text.block 16
    ["MATCH (function:Function \x7bname: $name, project: $project\x7d)",
     "RETURN function.name AS name, function.signature AS signature, ",
     "       function.file_path AS file_path, function.is_template AS is_template,",
     "       function.has_sfinae AS has_sfinae, function.is_metafunction AS is_metafunction,",
     "       function.has_variadic_templates AS has_variadic"]

def callersQuery : String :=
  Text.block 20
    ["MATCH (caller:Function \x7bproject: $project\x7d)" ++
       "-[:CALLS]->(function:Function \x7bname: $name, project: $project\x7d)",
     "RETURN caller.name AS name, caller.file_path AS file_path",
     "LIMIT $limit"]

def calledQuery : String :=
  Text.block 20
    ["MATCH (function:Function \x7bname: $name, project: $project\x7d)" ++
       "-[:CALLS]->(called:Function \x7bproject: $project\x7d)",
     "RETURN called.name AS name, called.file_path AS file_path",
     "LIMIT $limit"]

def shownColumn (r : Row) (key : String) : Run String := do return (← Row.column r key).shown

def saySignature (indent : String) (r : Row) : Run Unit := do
  let signature ← Row.column r "signature"
  if signature.truthy then say (indent ++ "签名: " ++ signature.shown)

def sayMost (rows : List Row) (column before behind : String) : Run Unit :=
  forNumbered rows fun number r => do
    say (number ++ (← shownColumn r "name") ++ " - " ++ before ++ " " ++ (← shownColumn r column) ++
      " " ++ behind)
    say ("   文件: " ++ (← shownColumn r "file_path"))
    saySignature "   " r
    say ""

def sayFunction (r : Row) : Run Unit := do
  say ("\n函数信息: " ++ (← shownColumn r "name"))
  say ("文件: " ++ (← shownColumn r "file_path"))
  saySignature "" r
  let feature := fun (key title : String) => do
    if (← Row.column r key).truthy then say (title ++ ": 是")
  feature "is_template" "模板"
  feature "is_metafunction" "元函数"
  feature "has_sfinae" "使用SFINAE"
  feature "has_variadic" "变参模板"

/-- Shows functions with their files, or a note that there are none. -/
def sayFiles (rows : List Row) (none : String) : Run Unit := do
  if rows.isEmpty then say none
  else
    forNumbered rows fun number r => do
      say ("  " ++ number ++ (← shownColumn r "name") ++ " - " ++ (← shownColumn r "file_path"))

def callsGrammar : CommandLine.Grammar :=
  simple
    [option "function" ["--function", "-f"] .null,
     option "project" ["--project", "-p"] (.str "default"),
     number "limit" ["--limit", "-l"] (.int 10),
     flag "callers" ["--callers", "-c"],
     flag "called" ["--called", "-d"],
     flag "most_called" ["--most-called", "-m"],
     flag "most_callers" ["--most-callers", "-M"]]

/-- Shows the calls around one function. Without a choice both directions are shown. -/
def sayCalls (args : Dict Json) (function project limit : String) (bound : Dict Json) :
    Run Unit := do
  let one := ("name", Json.str function) :: ("project", Json.str project) :: []
  match ← query oneFunctionQuery one with
  | [] | [] :: _ => say ("错误: 未找到函数 '" ++ function ++ "' 在项目 '" ++ project ++ "' 中")
  | r :: _ =>
    sayFunction r
    let callers := isOn args "callers"
    let called := isOn args "called"
    if callers || !called then
      say ("\n调用 '" ++ function ++ "' 的函数 (限制 " ++ limit ++ "):")
      sayFiles (← query callersQuery (one ++ bound)) "  没有找到调用者"
    if called || !callers then
      say ("\n'" ++ function ++ "' 调用的函数 (限制 " ++ limit ++ "):")
      sayFiles (← query calledQuery (one ++ bound)) "  没有找到被调用的函数"

def callsMain (words : List String) : Run Unit := do
  let args ← commandLine callsGrammar words
  let project := textOf args "project"
  let bound := [("limit", Json.int (numberOf args "limit"))]
  let limit := toString (numberOf args "limit")
  say "连接到Neo4j数据库..."
  connect
  if isOn args "most_called" then
    say ("\n查询在项目 '" ++ project ++ "' 中最常被调用的函数（Top " ++ limit ++ "）:")
    sayMost (← query mostCalledQuery (("project", .str project) :: bound)) "call_count" "被调用" "次"
  if isOn args "most_callers" then
    say ("\n查询在项目 '" ++ project ++ "' 中调用最多函数的函数（Top " ++ limit ++ "）:")
    sayMost (← query mostCallingQuery (("project", .str project) :: bound))
      "calls_count" "调用了" "个函数"
  match textOf args "function" with
  | "" => return
  | function => sayCalls args function project limit bound

end CodeAtlas.Survey

import CodeAtlas.Survey.Calls

/-!
# Survey of substitution failure

The functions that rely on substitution failure, or on one technique of it.
-/

namespace CodeAtlas.Survey

open Run CommandLine

def sfinaeQuery (condition : String) : String :=
  Text.block 16
    ["MATCH (function:Function \x7bproject: $project\x7d)",
     "WHERE function.has_sfinae = true" ++ condition,
     "RETURN function.name AS name, function.signature AS signature, ",
     "       function.file_path AS file_path, function.sfinae_techniques AS techniques",
     "LIMIT $limit"]

/-- Shows functions with their techniques. If `always`, the techniques are shown even if there are
none. -/
def sayTechniques (rows : List Row) (none : String) (always : Bool) : Run Unit := do
  if rows.isEmpty then say none
  else
    forNumbered rows fun number r => do
      say (number ++ (← shownColumn r "name"))
      say ("   文件: " ++ (← shownColumn r "file_path"))
      saySignature "   " r
      let techniques ← Row.column r "techniques"
      if always || techniques.truthy then
        say ("   SFINAE技术: " ++ (← lift (techniques.joinTexts ", ")))
      say ""

def sfinaeGrammar : CommandLine.Grammar :=
  simple
    [option "project" ["--project", "-p"] (.str "default"),
     number "limit" ["--limit", "-l"] (.int 20),
     option "technique" ["--technique", "-t"] .null]

def sfinaeMain (words : List String) : Run Unit := do
  let args ← commandLine sfinaeGrammar words
  let project := textOf args "project"
  let limit := ("limit", Json.int (numberOf args "limit"))
  say "连接到Neo4j数据库..."
  connect
  match textOf args "technique" with
  | "" =>
    say ("\n查询在项目 '" ++ project ++ "' 中使用SFINAE的函数:")
    sayTechniques (← query (sfinaeQuery "") [("project", .str project), limit])
      "未找到使用SFINAE的函数" false
  | technique =>
    say ("\n查询在项目 '" ++ project ++ "' 中使用 '" ++ technique ++ "' 技术的函数:")
    let rows ← query (sfinaeQuery " AND $technique IN function.sfinae_techniques")
      [("project", .str project), ("technique", .str technique), limit]
    sayTechniques rows ("未找到使用 '" ++ technique ++ "' 技术的函数") true

end CodeAtlas.Survey

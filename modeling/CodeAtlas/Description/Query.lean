import CodeAtlas.Description.Terms
import CodeAtlas.Session

/-!
# Queries made by a language model

A language model is asked to turn a description into a query. Its answer is searched for the query;
if there is none, or the service fails, a plain query stands in.
-/

namespace CodeAtlas.Description

open Run Text

def keyWords : Run (List String) := do return (← get).segments.getD []

def widened (language : Language) (description : String) : Run String := do
  return widen language (← keyWords) description

def prompt (description project : String) : String :=
  block 4
    ["我需要为图数据库Neo4j生成一个Cypher查询，在代码分析中查找特定函数。",
     "",
     "数据库结构:",
     "- 节点标签: Function",
     "- 节点属性: name, project, file_path, line_number, signature, namespace, is_defined, " ++
       "return_type, is_virtual, is_template",
     "- 关系: ",
     "  - (Function)-[:CALLS]->(Function) 表示函数调用关系",
     "  - (Function)-[:SPECIALIZES]->(Function) 表示模板特化关系",
     "  - (Function)-[:OVERRIDES]->(Function) 表示方法覆盖关系",
     "  - (Function)-[:HAS_CONTENT]->(TextContent) 连接到函数内容",
     "",
     "用户描述: " ++ description,
     "项目名称: " ++ project,
     "",
     "请生成一个Cypher查询，找到与这个描述最相关的函数。考虑函数名称、签名以及其他属性中可能包含的关键词。",
     "必须返回完整的函数节点，而不仅仅是节点的属性。确保查询最后是RETURN f 而不是返回f的属性。",
     "",
     "你的回答应该只包含Cypher查询语句本身，不要有任何解释或其他文本。查询应该以`MATCH`开头并以`;`或不带分号结尾。"]

def payload (question : String) : Json :=
  .obj [("model", .str "deepseek-chat"),
    ("messages", .arr
      [.obj [("role", .str "system"),
         ("content", .str "你是一个专业的代码分析助手，精通Neo4j Cypher查询语言。")],
       .obj [("role", .str "user"), ("content", .str question)]]),
    ("temperature", .float 0.3), ("max_tokens", .int 500)]

def serviceAddress : String := "https://api.deepseek.com/v1/chat/completions"

def fencedQuery : Pattern := .ofString "```(?:cypher)?\\s*((?:MATCH|match)[\\s\\S]*?)```"

def bareQuery : Pattern := .ofString "((?:MATCH|match)[^\\n;]*(?:\\n[^;]*)*)"

def queryIn? (answer : String) : Option String :=
  match fencedQuery.search? answer with
  | some m => some (strip (m.group 1))
  | none =>
    match bareQuery.search? answer with
    | some m => some (strip (m.group 1))
    | none =>
      let whole := strip answer
      if startsWith (whole.map Char.toUpper) "MATCH" then some whole else none

def answersFunctions (query : String) : Bool := occursIn "return f" (lower query)

/-- The query that stands in for an answer without a usable one. -/
def standIn (language : Language) (words : List String) (description project : String) : String :=
  let condition := match language with
    | .chinese => join " OR " ((words.take 3).map fun w => "f.name CONTAINS '" ++ w ++ "'")
    | .english =>
      "f.name CONTAINS '" ++ description ++ "' OR f.name =~ '(?i).*" ++ description ++ ".*'"
  block 16
    ["MATCH (f:Function)",
     "WHERE f.project = '" ++ project ++ "' ",
     "  AND (" ++ condition ++ ")",
     "RETURN f",
     "ORDER BY size((f)--()) DESC",
     "LIMIT 10"]

def plainQuery (description project : String) : String :=
  block 8
    ["MATCH (f:Function)",
     "WHERE f.project = '" ++ project ++ "' AND f.name CONTAINS '" ++ description ++ "'",
     "RETURN f",
     "LIMIT 10"]

def replyText (reply : Json) : Except Fault String := do
  let message ← (← (← reply.entry "choices").entryAt 0).entry "message"
  return strip (← (← message.entry "content").textFor "strip")

def generateQuery (description project : String) (language : Language) : Run String := do
  let question := prompt (← widened language description) project
  orElse (do
    let answer ← lift (replyText (← post serviceAddress (payload question)))
    match queryIn? answer with
    | some query =>
      if answersFunctions query then return query
    | none => pure ()
    say "LLM生成的查询可能不返回完整节点，使用备选查询。"
    return standIn language (← keyWords) description project) fun e => do
      say ("生成查询时出错: " ++ e.message)
      return plainQuery description project

end CodeAtlas.Description

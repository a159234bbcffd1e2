import CodeAtlas.Dict
import CodeAtlas.Pattern.Parse

/-!
# Terms of a description

A description of a function is widened before it is looked up: terms of programming bring in their
synonyms, and names that look like code are repeated.
-/

namespace CodeAtlas.Description

open Text

inductive Language where
  | chinese
  | english
deriving Repr, DecidableEq

def Language.ofName (name : String) : Language := if name == "zh" then .chinese else .english

def termTable : Dict (List String) :=
  [("函数", ["function", "method", "procedure", "routine"]),
   ("调用", ["call", "invoke", "execute"]),
   ("类", ["class", "struct", "type"]),
   ("继承", ["inheritance", "extends", "derives", "inherits"]),
   ("模板", ["template", "generic"]),
   ("虚函数", ["virtual function", "virtual method", "override"]),
   ("接口", ["interface", "protocol", "abstract class"]),
   ("异常", ["exception", "error", "throw", "catch"]),
   ("线程", ["thread", "concurrency", "parallel"]),
   ("同步", ["synchronization", "mutex", "lock"]),
   ("异步", ["asynchronous", "async", "promise", "future"]),
   ("内存", ["memory", "allocation", "heap", "stack"]),
   ("指针", ["pointer", "reference", "address"]),
   ("容器", ["container", "collection", "vector", "list", "map"]),
   ("算法", ["algorithm", "sort", "search", "find"]),
   ("字符串", ["string", "text", "char"]),
   ("网络", ["network", "socket", "http", "request"]),
   ("文件", ["file", "stream", "io"]),
   ("数据库", ["database", "query", "sql"]),
   ("缓存", ["cache", "buffer", "temporary"])]

def camelCase : Pattern := .ofString "[a-z][a-zA-Z0-9]*[A-Z][a-zA-Z0-9]*"

/-- Words with underscores; the group is the last part from the third on. -/
def snakeCase : Pattern := .ofString "[a-z][a-z0-9]*_[a-z0-9]+(_[a-z0-9]+)*"

def emptyCall : Pattern := .ofString "[a-zA-Z][a-zA-Z0-9]*\\(\\)"

/-- The names in a text that look like code, each once. Of a name with underscores only the last
part counts, and only if there are three or more. -/
def codeTerms (text : String) : List String :=
  sortedSet
    ((camelCase.findAll text).map Match.whole ++ (snakeCase.findAll text).map (·.group 1) ++
      (emptyCall.findAll text).map fun m => stripEndChars m.whole "()")

def synonymsOfWords (words : List String) : List String :=
  words.flatMap fun w => (termTable.get? w).getD []

def addSynonyms (description : String) (terms synonyms : List String) : List String :=
  synonyms.foldl (fun terms found =>
    if occursIn found description then addAllNew terms (synonyms.filter (· != found))
    else terms) terms

def synonymsOfText (description : String) : List String :=
  termTable.values.foldl (addSynonyms (lower description)) []

/-- A description widened by synonyms and names of code. `words` are its key words. -/
def widen (language : Language) (words : List String) (description : String) : String :=
  let synonyms := match language with
    | .chinese => synonymsOfWords (words.take 5)
    | .english => synonymsOfText description
  let terms := synonyms ++ codeTerms description
  let separator := match language with
    | .chinese => " "
    | .english => " OR "
  join separator (description :: terms)

end CodeAtlas.Description

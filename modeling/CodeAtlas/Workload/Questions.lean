import CodeAtlas.Search.Database
import CodeAtlas.Search.Features
import CodeAtlas.Search.Sources
import CodeAtlas.Workload.Sources

/-!
# Workloads on questions

Questions in natural language, taken in turn from a list: their language, the features that they
name, their words, and what a search makes of them.
-/

namespace CodeAtlas.Workload

open Run

def inTurn (items : List String) (size : Nat) : List String :=
  (List.range size).map fun i => items.getD (i % items.length) ""

def featureQuestions : List String :=
  ["find variadic template functions that use enable_if",
   "a partial specialization of a type trait",
   "template template parameters bound by a concept", "the detection idiom",
   "sort a list of numbers",
   "a value trait with tag dispatch", "a transform trait by substitution failure", "查找排序函数", "调用模板"]

def features (size : Nat) : Json :=
  let questions := inTurn featureQuestions size
  let row := fun q =>
    let found := Search.detectFeatures q
    Json.ofEntries ((Text.sorted found.keys).map fun k => (k, (found.get? k).getD .null))
  .arr [.ofStrings (questions.map Search.detectLanguage), .arr (questions.map row)]

def englishQuestions : List String :=
  ["find the function to search and sort items", "allocate memory for the container",
   "call the called virtual methods", "serialize and compress the message queue",
   "a routine to write, read, transform, validate and open files"]

def chineseWords : List String := ["函数", "调用", "模板", "内存", "指针", "队列", "算法", "缓存", "xx"]

def inflectedWords : List String :=
  ["calls", "called", "executes", "instantiates", "creates", "inherits"]

def storedFunctions : List Row :=
  ["search_sort_items", "allocate_memory_block"].map fun name =>
    [("f", .obj [("name", .str name), ("signature", .str ("void " ++ name ++ "()"))]),
     ("body", .str name)]

def storedNeighbours (kind : String) : Json :=
  .arr (numbered 2 fun i => .obj [("name", .str (kind ++ "_" ++ i ++ "_area"))])

def questionWords (size : Nat) : Run Json := do
  let english ← (inTurn englishQuestions size).mapM (Search.questionWords · "en")
  let chinese ← Search.questionWords "查找 排序 函数 调用 模板" "zh"
  let terms := (List.replicate 4 chineseWords).flatten.map (Search.translate Search.chineseTerms)
  let forms := (inflectedWords.take size).map (Search.translate Search.synonyms)
  return .arr ((english ++ [chinese, terms, forms]).map Json.ofStrings ++
    [.ofSet Search.englishStopWords, .ofSet Search.chineseStopWords])

/-- Searching: the words of questions, places of functions in sources, the length of placeholders,
callers and callees, and the functions that fit a description or a feature. -/
def search (size : Nat) : Run Json := do
  let words ← questionWords size
  modify fun w => { w with database := { w.database with
    outcomes := [.rows storedFunctions, .rows storedFunctions]
    answers := [("find_callers", storedNeighbours "caller"),
      ("find_callees", storedNeighbours "callee")] } }
  let places ← withFiles [] fun dir =>
    Search.searchFunctions ["area", "perimeter", "free_func_0"] dir Search.defaultFilePatterns
  let callers ← Search.callers "area" "p" (.int 1)
  let callees ← Search.callees "area" "p" (.int 1)
  let fitting ← Search.searchByDescription "search and sort, allocate memory" "p" 10 "en"
  let featured ← Search.findByFeatures "p" [("has_sfinae", .bool true)]
  let name := fun (f : Row) => (Dict.get? f "name").getD .null
  return .arr [words, .obj (places.map fun (k, l) => (k, count l.length)),
    count (Text.size (Search.stubs ["foo", "bar", "baz"])), .arr callers, .arr callees,
    .arr (fitting.map fun f => .arr [name f, .int (Search.relevance f)]), .arr (featured.map name)]

end CodeAtlas.Workload

import CodeAtlas.Description.Query

/-!
# Functions around a function

The callers, called functions, templates and overridden methods that the database knows, the search
for functions by key words, and the text of a function in its file.
-/

namespace CodeAtlas.Description

open Run Text

structure Related where
  callers : List Row := []
  callees : List Row := []
  specializes : List Row := []
  specializedBy : List Row := []
  overrides : List Row := []
  overriddenBy : List Row := []

def Related.toJson (r : Related) : Json :=
  let rows := fun (l : List Row) => Json.arr (l.map .obj)
  .obj [("callers", rows r.callers), ("callees", rows r.callees),
    ("specializes", rows r.specializes),
    ("specialized_by", rows r.specializedBy), ("overrides", rows r.overrides),
    ("overridden_by", rows r.overriddenBy)]

def neighbours (operation : String) (function project depth : Json) : Run (List Row) := do
  let found := (← ask? operation [function, project, depth]).getD (.arr [])
  (← lift found.walk).mapM fun item => lift do
    return [("name", ← item.fieldOr "name" (.str "")),
      ("file_path", ← item.fieldOr "file_path" (.str ""))]

def linkQuery (indent pattern answer : String) : String :=
  join "\n" ["", indent ++ "MATCH " ++ pattern, indent ++ "RETURN " ++ answer, indent]

def linked (function project : Json) (query column : String) : Run (List Row) := do
  let rows ← Run.query query [("name", function), ("project", project)]
  rows.mapM fun row => do lift (← Row.column row column).record

def self : String := "(f:Function \x7bname: $name, project: $project\x7d)"

/-- The functions around a function. `direction` is `callers`, `callees` or `both`. -/
def relatedFunctions (function project : Json) (direction : String) (depth : Json) :
    Run Related := do
  let wants := fun (d : String) => direction == d || direction == "both"
  let find := fun (wanted : Bool) (operation : String) =>
    if wanted then neighbours operation function project depth else pure []
  let indent := "        "
  let callers ← find (wants "callers") "find_callers"
  let callees ← find (wants "callees") "find_callees"
  let specializes ← linked function project
    (linkQuery indent (self ++ "-[:SPECIALIZES]->(template:Function)") "template") "template"
  let specializedBy ←
    if specializes.isEmpty then
      linked function project
        (linkQuery (indent ++ "    ") ("(spec:Function)-[:SPECIALIZES]->" ++ self) "spec") "spec"
    else pure []
  let overrides ← linked function project
    (linkQuery indent (self ++ "-[:OVERRIDES]->(base:Function)") "base") "base"
  let overriddenBy ← linked function project
    (linkQuery indent ("(derived:Function)-[:OVERRIDES]->" ++ self) "derived") "derived"
  return { callers, callees, specializes, specializedBy, overrides, overriddenBy }

def wordQuery (words : List String) (limit : Json) : String :=
  let conditions := words.flatMap fun w =>
    ["f.name CONTAINS '" ++ w ++ "'", "f.signature CONTAINS '" ++ w ++ "'"]
  block 8
    ["MATCH (f:Function)",
     "WHERE f.project = $project AND (" ++ join " OR " conditions ++ ")",
     "WITH f, size((f)--()) as connections",
     "RETURN f, connections",
     "ORDER BY connections DESC",
     "LIMIT " ++ limit.shown]

def searchWords (description : String) (project : Json) (language : Language) (limit : Json) :
    Run (List Row) := do
  let text ← widened language description
  let words ← match language with
    | .chinese => do pure ((← keyWords).take 5)
    | .english => pure (((words text).filter (2 < size ·)).map lower)
  let rows ← query (wordQuery words limit) [("project", project)]
  rows.mapM fun row => do
    let f ← Row.column row "f"
    let connections ← Row.column row "connections"
    return Dict.set (← lift f.record) "relevance" connections

def throughBraces : Int → Bool → List String → List String
  | _, _, [] => []
  | depth, opened, line :: rest =>
    let depth := depth + countChar line '\x7b' - countChar line '\x7d'
    let opened := opened || occursIn "\x7b" line
    if opened && depth == 0 then [line] else line :: throughBraces depth opened rest

def bodyLimit : Nat := 101

/-- The text of the function that starts in a line; the whole text if the line is not known. -/
def bodyFrom (content : String) (line : Int) : String :=
  if line ≤ 0 then content
  else
    let lines := (linesKeepingFeed content).drop (line.toNat - 1)
    String.join (throughBraces 0 false (lines.take bodyLimit))

def lineNumber : Json → Except Fault Int
  | .int n => .ok n
  | .bool b => .ok (if b then 1 else 0)
  | .float x =>
    if x ≤ 0.0 then .ok 0
    else .error (.wrongShape "'float' object cannot be interpreted as an integer")
  | j =>
    let kind := j.kindName
    .error (.wrongShape ("'<=' not supported between instances of '" ++ kind ++ "' and 'int'"))

/-- The text of the function that starts in a line of a file, or a note why there is none. -/
def functionText (path : String) (line : Json) : Run String := do
  if !(← pathExists path) then return "文件未找到: " ++ path
  else
    orElse (do
      let content ← lift ((← tree).readTextLoosely path)
      return bodyFrom content (← lift (lineNumber line))) fun e =>
        return "提取函数体时出错: " ++ e.message

end CodeAtlas.Description

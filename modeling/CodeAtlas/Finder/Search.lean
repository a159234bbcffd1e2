import CodeAtlas.Finder.Definitions
import CodeAtlas.Session

/-!
# Searching a code base

Functions that fit the words of a description, functions that call a given one, and chains of
calls. A file that cannot be worked through is passed over.
-/

namespace CodeAtlas.Finder

open Text

def stopWords : List String :=
  ["a", "an", "the", "and", "or", "but", "if", "of", "for", "in", "to", "with"]

def chineseWord : Pattern := .ofString "[\\u4e00-\\u9fff]\x7b2,3\x7d"

/-- The keywords of a description, in the order of code points; if there are fewer than two, all of
its words in their order. -/
def keywords (description : String) : List String :=
  let words := words (lower description)
  let long := words.filter fun w => !stopWords.contains w && 2 < size w
  let chinese := (chineseWord.findAll description).map Match.whole
  let all := sortedSet (long ++ chinese)
  if all.length < 2 then words else all

def occurrences (keyword text : String) : Except Fault Nat :=
  match Pattern.parse (lower keyword) with
  | .ok p => .ok (p.findAll (lower text)).length
  | .error e => .error (.pattern e.message)

/-- How well a function fits keywords: ten points for each keyword in its name, three for each
occurrence in its text. -/
def relevance (name : String) (body : Option String) (keywords : List String) :
    Except Fault Nat := do
  let inName := (keywords.filter fun k => occursIn (lower k) (lower name)).length
  let inBody ← match body with
    | some b => keywords.mapM (occurrences · b)
    | none => pure []
  return 10 * inName + 3 * inBody.foldl (· + ·) 0

/-! ### Files and functions -/

/-- The definitions in a text, none if it cannot be worked through. -/
def definitionsOrNone (content file : String) : List Definition :=
  match definitionsIn content file with
  | .ok l => l
  | .error _ => []

def sourceTexts (t : FileTree) (dir : String) (endings : List String) : List (String × String) :=
  (t.walk dir).flatMap fun s =>
    (s.files.filter (endsWithAny · endings)).filterMap fun f =>
      let path := Path.join s.dir f
      match t.readTextLoosely path with
      | .ok content => some (path, content)
      | .error _ => none

def CodeBase.ofTree (t : FileTree) (dir : String) (endings : List String) : CodeBase :=
  (sourceTexts t dir endings).map fun (path, content) =>
    ⟨path, content, definitionsOrNone content path⟩

structure Hit where
  definition : Definition
  relevance : Nat
  calls : Option Nat := none
deriving Repr, DecidableEq

def best (limit : Int) (hits : List Hit) : List Hit :=
  Positions.upTo (hits.mergeSort fun a b => b.relevance ≤ a.relevance) limit

def fitting (keywords : List String) : List Definition → List Hit
  | [] => []
  | d :: rest =>
    match relevance d.name (some d.body) keywords with
    | .ok 0 => fitting keywords rest
    | .ok n => ⟨d, n, none⟩ :: fitting keywords rest
    | .error _ => []

def CodeBase.search (b : CodeBase) (keywords : List String) (limit : Int) : List Hit :=
  best limit <| b.flatMap fun s =>
    if keywords.any fun k => occursIn (lower k) (lower s.content) then
      fitting keywords s.definitions
    else []

def callOf (name : String) : Pattern :=
  .ofString ("[^a-zA-Z0-9_]" ++ Pattern.escape name ++ "\\s*\\(")

def CodeBase.callersOf (b : CodeBase) (name : String) (limit : Int) : List Hit :=
  best limit <| b.flatMap fun s =>
    if (callOf name).foundIn s.content then
      s.definitions.filterMap fun d =>
        match ((callOf name).findAll d.body).length with
        | 0 => none
        | n => some ⟨d, 10 * n, some n⟩
    else []

def CodeBase.define? (b : CodeBase) (name : String) : Option Definition :=
  (b.flatMap (·.definitions)).find? (·.name == name)

def anyCall : Pattern := .ofString "[^a-zA-Z0-9_]([a-zA-Z0-9_]+)\\s*\\("

def builtins : List String :=
  ["print", "len", "int", "str", "float", "list", "dict", "set", "tuple"]

def calledNames (body : String) : List String := (anyCall.findAll body).map (·.group 1)

def CodeBase.calleesIn (b : CodeBase) (body : String) : List Definition :=
  ((calledNames body).filter (!builtins.contains ·)).filterMap b.define?

/-- A caller with its own callers, as far as they were looked for. -/
inductive Upward where
  | node (hit : Hit) (callers : Option (List Upward))

/-- A called function with the functions it calls, as far as they were looked for. -/
inductive Downward where
  | node (definition : Definition) (callees : Option (List Downward))

structure Chain where
  callers : List Upward := []
  callees : List Downward := []

/-- The chain of a function, the functions visited passed along. `below` gives the chains one level
further, if they are wanted. A function is visited once. -/
def CodeBase.chainStep (b : CodeBase) (below : Option (String → List String → Chain × List String))
    (name : String) (visited : List String) : Chain × List String :=
  if visited.contains name then ({}, visited)
  else
    let visited := name :: visited
    let callers := b.callersOf name 10
    let callees := match b.define? name with
      | some d => b.calleesIn d.body
      | none => []
    match below with
    | none => (⟨callers.map (.node · none), callees.map (.node · none)⟩, visited)
    | some below =>
      let (ups, visited) := callers.foldl (fun (out, visited) h =>
        if visited.contains h.definition.name then (out ++ [Upward.node h none], visited)
        else
          let (c, visited) := below h.definition.name visited
          (out ++ [.node h (some c.callers)], visited)) (([] : List Upward), visited)
      let (downs, visited) := callees.foldl (fun (out, visited) d =>
        if visited.contains d.name then (out ++ [Downward.node d none], visited)
        else
          let (c, visited) := below d.name visited
          (out ++ [.node d (some c.callees)], visited)) (([] : List Downward), visited)
      (⟨ups, downs⟩, visited)

def CodeBase.chainFrom (b : CodeBase) : Nat → String → List String → Chain × List String
  | 0 => b.chainStep none
  | 1 => b.chainStep none
  | n + 2 => b.chainStep (some (b.chainFrom (n + 1)))

/-- The chains of functions; a function without a definition is reported. -/
def callChains (b : CodeBase) (names : List String) (depth : Int) : Run (Dict Chain) :=
  names.foldlM (fun chains name => do
    if (b.define? name).isSome then
      return Dict.set chains name (if depth < 0 then {} else (b.chainFrom depth.toNat name []).1)
    else
      Run.say ("警告: 未找到函数定义 '" ++ name ++ "'")
      return Dict.set chains name {}) []

def Definition.toRow (d : Definition) : Row :=
  [("name", .str d.name), ("file_path", .str d.file), ("line_number", .int d.line),
   ("body", .str d.body)]

def Hit.toRow (h : Hit) : Row :=
  h.definition.toRow ++ [("relevance", .int h.relevance)] ++
    (h.calls.map fun n => ("calls", Json.int n)).toList

structure Crawl where
  found : Dict Row := []
  visited : List String := []

/-- The name a row is followed under, empty if it has none that counts as true. -/
def rowName (row : Row) : String :=
  match (Dict.get? row "name").filter Json.truthy with
  | some name => name.shown
  | none => ""

/-- Follows calls from functions to a depth: `next` gives the functions one step further, none if
the way ends. Each name is visited once. -/
def crawl (next : String → Option (List Row)) : Nat → List Row → Crawl → Crawl
  | 0, _, c => c
  | depth + 1, rows, c =>
    rows.foldl (fun c row =>
      let name := rowName row
      if name.isEmpty || c.visited.contains name then c
      else
        let c := { found := Dict.set c.found name row, visited := name :: c.visited }
        match next name with
        | some rows => crawl next depth rows c
        | none => c) c

def CodeBase.crawlCallers (b : CodeBase) (depth : Int) (rows : List Row) (visited : List String) :
    Crawl :=
  crawl (fun name => some ((b.callersOf name 10).map Hit.toRow)) depth.toNat rows { visited }

def CodeBase.crawlCallees (b : CodeBase) (depth : Int) (rows : List Row) (visited : List String) :
    Crawl :=
  crawl (fun name => (b.define? name).map fun d => (b.calleesIn d.body).map Definition.toRow)
    depth.toNat rows { visited }

mutual

def Upward.toJson : Upward → Json
  | .node hit none => .obj hit.toRow
  | .node hit (some callers) => .obj (hit.toRow ++ [("callers", .arr (Upward.listJson callers))])

def Upward.listJson : List Upward → List Json
  | [] => []
  | u :: rest => u.toJson :: Upward.listJson rest

end

mutual

def Downward.toJson : Downward → Json
  | .node d none => .obj d.toRow
  | .node d (some callees) => .obj (d.toRow ++ [("callees", .arr (Downward.listJson callees))])

def Downward.listJson : List Downward → List Json
  | [] => []
  | d :: rest => d.toJson :: Downward.listJson rest

end

def Chain.toJson (c : Chain) : Json :=
  .obj [("callers", .arr (Upward.listJson c.callers)),
    ("callees", .arr (Downward.listJson c.callees))]

end CodeAtlas.Finder

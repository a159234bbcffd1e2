import CodeAtlas.Source.CasePattern
import CodeAtlas.Source.Layout

/-!
# Statements

The statements of a block one after the other. The blocks inside are read before the statements
that they belong to. A missing or a surplus indent is a fault of its own.
-/

namespace CodeAtlas.Source

open Parse

/-! ### Statements on a line -/

def endsStatement (t : Token) : Bool := t.kind == .newline || isSign t ";"

def dottedName : Parse Unit := do
  let _ ← separated expectName "." fun _ => false

def renamed (name : Parse Unit) : Parse Unit := do
  name
  if ← acceptWord "as" then
    let _ ← expectName

def importedNames : Parse Unit := do
  let dots ← repeated do
    if ← acceptSign "." then return some ()
    if ← acceptSign "..." then return some ()
    return none
  if dots.isEmpty || !(← seesWord "import") then dottedName
  expectWord "import"
  if ← acceptSign "*" then return
  let name := renamed (do let _ ← expectName)
  if ← acceptSign "(" then
    let _ ← separated name "," (isSign · ")")
    expectSign ")"
  else
    let _ ← separated name "," fun _ => false

/-- A statement that begins with an expression: an assignment, a change in place, an annotation or
the value alone. -/
def valueStatement (n : Nat) : Parse (List Value) := do
  let head ← items n
  let t ← peek
  if t.kind == .sign && updates.contains t.text then
    let _ ← take
    match head.kind with
    | .name _ | .part => return [head, ← items n]
    | _ => fail
  if ← acceptSign ":" then
    match head.kind with
    | .name _ | .part =>
      let annotation ← expression n
      let value ← if ← acceptSign "=" then pure [← items n] else pure []
      return head :: annotation :: value
    | _ => fail
  let rest ← repeated do
    if ← acceptSign "=" then return some (← items n)
    return none
  if Value.areTargets ((head :: rest).dropLast) then return head :: rest
  fail

def wordStatements : List String := ["pass", "break", "continue"]

def simpleStatement (n : Nat) : Parse (List Value) := do
  let t ← peek
  if t.kind == .name && wordStatements.contains t.text then
    let _ ← take
    return []
  if ← acceptWord "return" then
    if endsStatement (← peek) then return []
    return [← row n]
  if ← acceptWord "raise" then
    if endsStatement (← peek) then return []
    let fault ← expression n
    if ← acceptWord "from" then return [fault, ← expression n]
    return [fault]
  if ← acceptWord "assert" then
    let test ← expression n
    if ← acceptSign "," then return [test, ← expression n]
    return [test]
  if ← acceptWord "del" then return [← targets n false]
  if isWord t "global" || isWord t "nonlocal" then
    let _ ← take
    let _ ← separated expectName "," fun _ => false
    return []
  if ← acceptWord "import" then
    let _ ← separated (renamed dottedName) "," fun _ => false
    return []
  if ← acceptWord "from" then
    importedNames
    return []
  valueStatement n

def simpleStatements (n : Nat) : Parse (List Tree) := do
  let (statements, _) ← separated (simpleStatement n) ";" (·.kind == .newline)
  expectEnd
  return statements.map .values

/-- The line of a match, if there is one; the word has no meaning of its own elsewhere. -/
def matchLine? (n : Nat) : Parse (Option Value) := perhaps do
  expectWord "match"
  let subject := tupleOf (← separated (item n) "," endsItems)
  expectSign ":"
  if subject.kind == .starred then fail
  expectEnd
  return subject

def guardEntries (n : Nat) : Parse (List Value) := do
  let entry : Parse Value := do
    let value ← expression n
    if ← acceptWord "as" then
      let target ← binary n operators
      if target.isTarget then return .node .other [value, target]
      fail
    return .node .other [value]
  let bracketed ← perhaps do
    expectSign "("
    let (entries, _) ← separated entry "," (isSign · ")")
    expectSign ")"
    if ← seesSign ":" then return entries
    fail
  match bracketed with
  | some entries => return entries
  | none => return (← separated entry "," fun _ => false).1

def handled (grouped : Bool) (n : Nat) : Parse (List Value) := do
  if !grouped && (← seesSign ":") then return []
  let fault ← expression n
  if ← acceptWord "as" then
    let _ ← expectName
  return [fault]

/-- A definition without its body: the tree that it is with the rest, and its parts around the
body. -/
structure Head where
  kind : NodeKind
  front : List Value
  back : List Value := []

def definitionHead (n : Nat) : Parse Head := do
  if ← acceptWord "class" then
    let name ← expectName
    let opens ← acceptSign "("
    let bases ← (if opens then arguments n false else return [])
    return ⟨.classDef name, bases, []⟩
  let isAsync ← acceptWord "async"
  expectWord "def"
  let name ← expectName
  expectSign "("
  let params ← parameters n true ")"
  expectSign ")"
  -- where no annotation of the result stands, an empty value does
  let annotated ← acceptSign "->"
  let returns ← (if annotated then expression n else return .node .other [])
  return ⟨.function isAsync name (params.plain.map Param.name) 0, [params.node], [returns]⟩

/-! ### Statements in blocks -/

/-- A block that was read, as statements and as the cases of a match. -/
structure Body where
  statements : Except Fault (List Tree)
  cases : Except Fault (List Tree)
  last : Nat

inductive Item where
  | line (l : Line)
  | block (b : Body)

/-- Where a block is read: the flaw of the source, and whether the block is inside of another. -/
structure Context where
  flaw : Option Flaw
  nested : Bool

/-- What is left of the line that is read, with the last row read and the items below. -/
structure Site where
  ahead : List Token
  depth : Nat
  last : Nat
  below : List Item

/-- No rule goes through more than 32 others before it takes a token or a part of a text. -/
def Line.depth (l : Line) : Nat := 32 * l.tokens.foldr (fun t n => t.text.length + 2 + n) 2

def Line.starts (l : Line) (fits : Token → Bool) : Bool := (l.tokens.head?.map fits).getD false

def Site.ofLine (l : Line) (below : List Item) : Site := ⟨l.tokens, l.depth, l.last, below⟩

abbrev Reader := ReaderT Context (StateT Site (Except Fault))

namespace Reader

def onLine {α : Type} (p : Nat → Parse α) : Reader α := do
  let site ← get
  let (a, place) ← ((p site.depth).run ⟨site.ahead, (← read).flaw⟩ : Except Fault (α × Place))
  set { site with ahead := place.ahead }
  return a

/-- Goes on to the line below if it begins with a word, which is taken. -/
def nextLine (word : String) : Reader Bool := do
  match (← get).below with
  | .line l :: below =>
    if l.starts (isWord · word) then
      set { Site.ofLine l below with ahead := l.tokens.tail }
      return true
    return false
  | _ => return false

def headToken : List Item → Token
  | .line l :: _ => l.tokens.headD ⟨.newline, ""⟩
  | _ => ⟨.newline, ""⟩

/-- The fault of a parse that fails in front of items. -/
def faultBefore (c : Context) : List Item → Fault
  | .block _ :: _ => .indentation "unexpected indent"
  | [] => if c.nested then .indentation "unexpected unindent" else .grammar "invalid syntax"
  | items => faultAt c.flaw (headToken items)

/-- The fault of a missing block. A flaw here and a token that cannot be read count more. -/
def missingBlock (flaw : Option Flaw) (below : List Item) : Fault :=
  if (headToken below).kind == .flaw then faultAt flaw (headToken below)
  else if flaw == some .token then Flaw.token.fault
  else .indentation "expected an indented block"

def takeBlock (contents : Body → Except Fault (List Tree)) : Reader (List Tree) := do
  let site ← get
  match site.below with
  | .block b :: below =>
    set { site with last := b.last, below }
    contents b
  | below => throw (missingBlock (← read).flaw below)

def suite : Reader (List Tree) := do
  onLine fun _ => expectSign ":"
  if (← get).ahead.isEmpty then takeBlock Body.statements else onLine simpleStatements

/-- The statements behind a word at the beginning of the line below, if it is there. -/
def suiteAfter (word : String) : Reader (List Tree) := do
  if ← nextLine word then suite else return []

def clause (header : Nat → Parse (List Value)) : Reader (List Tree) := do
  let values ← onLine header
  return values.map .value ++ (← suite)

def choice : Nat → Reader (List Tree)
  | 0 => throw (.grammar "invalid syntax")
  | n + 1 => do
    let body ← clause fun n => return [← namedExpression n]
    if ← nextLine "elif" then return body ++ [.plain (← choice n)]
    return body ++ (← suiteAfter "else")

def loop (header : Nat → Parse (List Value)) : Reader (List Tree) := do
  let body ← clause header
  return body ++ (← suiteAfter "else")

def handlers : Nat → Reader (List (Bool × Tree))
  | 0 => return []
  | n + 1 => do
    if !(← nextLine "except") then return []
    let grouped ← onLine fun _ => acceptSign "*"
    let body ← clause (handled grouped)
    return (grouped, .plain body) :: (← handlers n)

def failBelow {α : Type} : Reader α := do
  throw (faultAt (← read).flaw (headToken (← get).below))

def attempt : Reader (List Tree) := do
  let body ← suite
  let handlers ← handlers ((← get).below.length)
  if handlers.any (·.1) && handlers.any (!·.1) then failBelow else
    let otherwise ← (if handlers.isEmpty then return [] else suiteAfter "else")
    let final ← suiteAfter "finally"
    if handlers.isEmpty && final.isEmpty then failBelow else
      return body ++ handlers.map (·.2) ++ otherwise ++ final

def definition (first : Nat) : Reader Tree := do
  let head ← onLine definitionHead
  let body ← suite
  return .node head.kind first (← get).last (head.front.map .value ++ body ++ head.back.map .value)

def asyncForms : List (String × Reader (List Tree)) :=
  [("for", loop fun n => do
      let target ← targets n true
      expectWord "in"
      return [target, ← row n]),
   ("with", clause guardEntries)]

def plainForms : List (String × Reader (List Tree)) :=
  [("if", do choice ((← get).below.length + 1)),
   ("while", loop fun n => return [← namedExpression n]),
   ("try", attempt)]

def startedBy : List (String × Reader (List Tree)) → Reader (Option (List Tree))
  | [] => return none
  | (word, form) :: rest => do
    if ← onLine fun _ => acceptWord word then return some (← form)
    startedBy rest

def lineStatements : Reader (List Tree) := do
  match ← onLine matchLine? with
  | some subject => return [.plain (.value subject :: (← takeBlock Body.cases))]
  | none => onLine simpleStatements

def plainStatement : Reader (List Tree) := do
  let isAsync ← onLine fun _ => acceptWord "async"
  match ← startedBy (asyncForms ++ if isAsync then [] else plainForms) with
  | some parts => return [.plain parts]
  | none => if isAsync then onLine fun _ => fail else lineStatements

def case : Reader Tree := do
  return .plain (← clause fun n => do
    expectWord "case"
    casePatterns n
    if ← acceptWord "if" then return [← namedExpression n]
    return [])

end Reader

def Line.startsDefinition (l : Line) : Bool :=
  match l.tokens with
  | a :: rest =>
    isWord a "def" || isWord a "class" ||
      (isWord a "async" && (rest.head?.map (isWord · "def")).getD false)
  | [] => false

def decorators (flaw : Option Flaw) : List Item → Except Fault (List Value × List Item)
  | .line l :: below =>
    if l.starts (isSign · "@") then do
      let decorator : Parse Value := do
        expectSign "@"
        let value ← namedExpression l.depth
        expectEnd
        return value
      let (value, _) ← decorator.run ⟨l.tokens, flaw⟩
      let (values, below) ← decorators flaw below
      return (value :: values, below)
    else .ok ([], .line l :: below)
  | items => .ok ([], items)

def statement (c : Context) (items : List Item) : Except Fault (List Tree × Nat) := do
  let (decorators, below) ← decorators c.flaw items
  match below with
  | .line l :: below =>
    if l.startsDefinition then
      let (t, site) ← (Reader.definition l.first c).run (.ofLine l below)
      return ([t.decorate decorators], items.length - site.below.length)
    else if decorators.isEmpty then
      let (trees, site) ← (Reader.plainStatement c).run (.ofLine l below)
      return (trees, items.length - site.below.length)
    else throw (Reader.faultBefore c (.line l :: below))
  | below => throw (Reader.faultBefore c below)

/-- Reads a block from one of its items on, at most `n` times. -/
def readAll (step : List Item → Except Fault (List Tree × Nat)) :
    Nat → List Item → Except Fault (List Tree)
  | _, [] => .ok []
  | 0, _ => .error (.grammar "invalid syntax")
  | n + 1, items => do
    let (trees, taken) ← step items
    return trees ++ (← readAll step n (items.drop taken))

def statements (c : Context) (items : List Item) : Except Fault (List Tree) :=
  readAll (statement c) items.length items

def cases (c : Context) (items : List Item) : Except Fault (List Tree) :=
  readAll (fun items => do
    match items with
    | .line l :: below =>
      let (t, site) ← (Reader.case c).run (.ofLine l below)
      return ([t], items.length - site.below.length)
    | items => throw (Reader.faultBefore c items)) items.length items

def lastRow : List Item → Nat
  | [] => 0
  | [.line l] => l.last
  | [.block b] => b.last
  | _ :: rest => lastRow rest

mutual

def Layout.item (flaw : Option Flaw) : Layout → Item
  | .line l => .line l
  | .block l =>
    let items := layoutItems flaw l
    .block ⟨statements ⟨flaw, true⟩ items, cases ⟨flaw, true⟩ items, lastRow items⟩

def layoutItems (flaw : Option Flaw) : List Layout → List Item
  | [] => []
  | x :: rest => x.item flaw :: layoutItems flaw rest

end

/-- The statements of a source whose rows are numbered from `n` on. -/
def parse (n : Nat) (source : String) : Except Fault (List Tree) := do
  let (blocks, flaw) := layout n (Text.rows source)
  let trees ← statements ⟨flaw, false⟩ (layoutItems flaw blocks)
  match flaw with
  | some f => throw f.fault
  | none => return trees

end CodeAtlas.Source

import CodeAtlas.Source.Tree

/-!
# Steps of a parse

A parse goes over the tokens of a line and may fail. One that fails where the tokens have a flaw
fails because of it.
-/

namespace CodeAtlas.Source

structure Place where
  ahead : List Token
  flaw : Option Flaw := none

abbrev Parse := StateT Place (Except Fault)

/-- The fault of a parse that fails in front of a token. -/
def faultAt (flaw : Option Flaw) (t : Token) : Fault :=
  match t.kind, flaw with
  | .flaw, some f => f.fault
  | _, _ => .grammar "invalid syntax"

namespace Parse

def peek : Parse Token := do
  return (← get).ahead.headD ⟨.newline, ""⟩

def fail {α : Type} : Parse α := do
  throw (faultAt (← get).flaw (← peek))

/-- The result of a step, or nothing if it fails; then nothing was taken. -/
def perhaps {α : Type} (step : Parse α) : Parse (Option α) := fun p =>
  match step p with
  | .ok (a, q) => .ok (some a, q)
  | .error _ => .ok (none, p)

def take : Parse Token := do
  let t ← peek
  modify fun p => { p with ahead := p.ahead.tail }
  return t

def isSign (t : Token) (s : String) : Bool := t.kind == .sign && t.text == s

def isWord (t : Token) (s : String) : Bool := t.kind == .name && t.text == s

def seesSign (s : String) : Parse Bool := return isSign (← peek) s

def seesWord (s : String) : Parse Bool := return isWord (← peek) s

def acceptSign (s : String) : Parse Bool := do
  if ← seesSign s then
    let _ ← take
    return true
  return false

def acceptWord (s : String) : Parse Bool := do
  if ← seesWord s then
    let _ ← take
    return true
  return false

def expectSign (s : String) : Parse Unit := do
  if !(← acceptSign s) then fail

def expectWord (s : String) : Parse Unit := do
  if !(← acceptWord s) then fail

def keywords : List String :=
  ["False", "None", "True", "and", "as", "assert", "async", "await", "break", "class", "continue",
   "def", "del", "elif", "else", "except", "finally", "for", "from", "global", "if", "import", "in",
   "is", "lambda", "nonlocal", "not", "or", "pass", "raise", "return", "try", "while", "with",
   "yield"]

def takeIf (fits : Token → Bool) : Parse Token := do
  if fits (← peek) then take else fail

def expectName : Parse String := do
  return (← takeIf fun t => t.kind == .name && !keywords.contains t.text).text

def expectEnd : Parse Unit := do
  if !(← get).ahead.isEmpty then fail

/-- Repeats a step until it finds nothing, at most `n` times. -/
def many {α : Type} (step : Parse (Option α)) : Nat → Parse (List α)
  | 0 => return []
  | n + 1 => do
    match ← step with
    | none => return []
    | some a => return a :: (← many step n)

def repeated {α : Type} (step : Parse (Option α)) : Parse (List α) := do
  many step ((← get).ahead.length + 1)

/-- One or more items with signs between them; `stops` tells whether a list may end behind a sign.
Also says whether there was a sign. -/
def separated {α : Type} (item : Parse α) (sign : String) (stops : Token → Bool) :
    Parse (List α × Bool) := do
  let head ← item
  let before := (← get).ahead.length
  let rest ← repeated do
    if ← acceptSign sign then
      if stops (← peek) then return none
      return some (← item)
    return none
  return (head :: rest, (← get).ahead.length < before)

end Parse

end CodeAtlas.Source

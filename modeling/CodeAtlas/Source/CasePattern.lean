import CodeAtlas.Source.Expression

/-!
# Patterns of cases

The cases of a match have patterns: constants, names, sequences, tables and classes with patterns
inside. No pattern holds a definition or a call, so only its form is read.
-/

namespace CodeAtlas.Source

open Parse

inductive PatternForm where
  | plain
  | starred
deriving Repr, DecidableEq

def endsPatterns (t : Token) : Bool :=
  isSign t ")" || isSign t "]" || isSign t "\x7d" || isSign t ":" || isWord t "if"

/-- A number, or a real one and an imaginary one. -/
def numberPattern : Parse Unit := do
  let isImaginary := fun (t : Token) => Text.endsWithAny t.text ["j", "J"]
  let _ ← acceptSign "-"
  let first ← takeIf (·.kind == .number)
  if ← if ← acceptSign "+" then pure true else acceptSign "-" then
    let second ← takeIf (·.kind == .number)
    if isImaginary first || !isImaginary second then fail

def constantPattern? : Parse Bool := do
  let t ← peek
  if t.kind == .number || isSign t "-" then
    numberPattern
    return true
  if t.isText then
    let parts ← repeated do
      if (← peek).isText then return some (← take)
      return none
    if parts.any (·.isBytes != t.isBytes) then fail
    return true
  if isWord t "None" || isWord t "True" || isWord t "False" then
    let _ ← take
    return true
  return false

mutual

def casePattern : Nat → Parse Unit
  | 0 => fail
  | n + 1 => do
    let _ ← separated (closedPattern n) "|" fun _ => false
    if ← acceptWord "as" then
      if (← expectName) == "_" then fail

def starPattern : Nat → Parse PatternForm
  | 0 => fail
  | n + 1 => do
    if ← acceptSign "*" then
      let _ ← expectName
      return .starred
    casePattern n
    return .plain

def closedPattern : Nat → Parse Unit
  | 0 => fail
  | n + 1 => do
    if ← constantPattern? then return
    if ← acceptSign "[" then
      if ← acceptSign "]" then return
      let _ ← separated (starPattern n) "," endsPatterns
      expectSign "]"
    else if ← acceptSign "(" then
      if ← acceptSign ")" then return
      let (forms, comma) ← separated (starPattern n) "," endsPatterns
      expectSign ")"
      if !comma && forms == [.starred] then fail
    else if ← acceptSign "\x7b" then
      if ← acceptSign "\x7d" then return
      let (entries, _) ← separated (tableEntry n) "," endsPatterns
      expectSign "\x7d"
      if entries.dropLast.contains .starred then fail
    else
      let _ ← separated expectName "." fun _ => false
      if ← acceptSign "(" then
        if ← acceptSign ")" then return
        let (named, _) ← separated (classEntry n) "," endsPatterns
        expectSign ")"
        if (named.dropWhile (!·)).contains false then fail

def tableEntry : Nat → Parse PatternForm
  | 0 => fail
  | n + 1 => do
    if ← acceptSign "**" then
      if (← expectName) == "_" then fail
      return .starred
    if !(← constantPattern?) then
      let (names, _) ← separated expectName "." fun _ => false
      if names.length < 2 then fail
    expectSign ":"
    casePattern n
    return .plain

def classEntry : Nat → Parse Bool
  | 0 => fail
  | n + 1 => do
    let named ← seesNamedArg
    if named then
      let _ ← expectName
      expectSign "="
    casePattern n
    return named

end

def casePatterns (n : Nat) : Parse Unit := do
  let (forms, comma) ← separated (starPattern n) "," endsPatterns
  if !comma && forms == [.starred] then fail

end CodeAtlas.Source

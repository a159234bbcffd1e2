import CodeAtlas.Pattern.Search

/-!
# Written patterns

Reads a pattern from its usual notation: sets in brackets, groups in parentheses, `|` between
alternatives and `*`, `+`, `?` or a pair of counts in braces for repetitions. A notation that
means nothing is an error. So is a character given by its name, for which there is no table here,
and a choice by a group that is opened behind it.
-/

namespace CodeAtlas

inductive PatternError where
  | unterminatedSet
  | badRange
  | badEscape
  | nothingToRepeat
  | multipleRepeat
  | reversedCounts
  | unbalanced
  | badGroup
  | variableWidth
deriving Repr, DecidableEq

def PatternError.message : PatternError → String
  | .unterminatedSet => "unterminated character set"
  | .badRange => "bad character range"
  | .badEscape => "bad escape"
  | .nothingToRepeat => "nothing to repeat"
  | .multipleRepeat => "multiple repeat"
  | .reversedCounts => "min repeat greater than max repeat"
  | .unbalanced => "unbalanced parenthesis"
  | .badGroup => "unknown extension"
  | .variableWidth => "look-behind requires fixed-width pattern"

namespace Pattern

structure Flags where
  dotAll : Bool := false
  multiLine : Bool := false
  anyCase : Bool := false
  ascii : Bool := false
  verbose : Bool := false
deriving Repr, DecidableEq

structure Reading where
  rest : List Char
  groups : Nat
  closed : List Nat
  names : List (String × Nat)

abbrev ReadM := StateT Reading (Except PatternError)

def peek : ReadM (Option Char) := do return (← get).rest.head?

def skip : ReadM Unit := modify fun r => { r with rest := r.rest.tail }

def next? : ReadM (Option Char) := do
  let c ← peek
  skip
  return c

def accept (s : String) : ReadM Bool := do
  match Text.dropStart? s.toList (← get).rest with
  | some rest => modify fun r => { r with rest }; return true
  | none => return false

def hexValue? (c : Char) : Option Nat :=
  if '0' ≤ c && c ≤ '9' then some (c.toNat - '0'.toNat)
  else if 'a' ≤ c && c ≤ 'f' then some (c.toNat - 'a'.toNat + 10)
  else if 'A' ≤ c && c ≤ 'F' then some (c.toNat - 'A'.toNat + 10)
  else none

def hexChar : Nat → Nat → ReadM Char
  | 0, value => return Char.ofNat value
  | n + 1, value => do
    match (← next?).bind hexValue? with
    | some d => hexChar n (16 * value + d)
    | none => throw .badEscape

def controlOf? : Char → Option Char
  | 'n' => some '\n'
  | 't' => some '\t'
  | 'r' => some '\r'
  | 'f' => some '\x0c'
  | 'v' => some '\x0b'
  | 'a' => some '\x07'
  | '\\' => some '\\'
  | _ => none

def asciiWord (negated : Bool) : CharItem :=
  .among [('0', '9'), ('A', 'Z'), ('_', '_'), ('a', 'z')] negated

/-- The class that a letter names; a capital letter names what it leaves out. -/
def classOf? (flags : Flags) (c : Char) : Option CharItem :=
  match c.toLower with
  | 'd' => some (if flags.ascii then .among [('0', '9')] c.isUpper else .digit c.isUpper)
  | 'w' => some (if flags.ascii then asciiWord c.isUpper else .word c.isUpper)
  | 's' =>
    some (if flags.ascii then .among [('\t', '\r'), (' ', ' ')] c.isUpper else .blank c.isUpper)
  | _ => none

def isPlain (c : Char) : Bool :=
  ('a' ≤ c && c ≤ 'z') || ('A' ≤ c && c ≤ 'Z') || ('0' ≤ c && c ≤ '9')

def isOctal (c : Char) : Bool := '0' ≤ c && c ≤ '7'

/-- Takes octal digits, at most `n`, behind a value. -/
def octal : Nat → Nat → ReadM Nat
  | 0, value => return value
  | n + 1, value => do
    match ← peek with
    | some c =>
      if isOctal c then
        skip
        octal n (8 * value + (c.toNat - '0'.toNat))
      else return value
    | none => return value

def octalChar (first : Char) : ReadM Char := do
  let value ← octal 2 (first.toNat - '0'.toNat)
  if 0o377 < value then throw .badEscape else return Char.ofNat value

def escapedChar (c : Char) : ReadM Char := do
  if let some k := controlOf? c then return k
  if c == 'x' then hexChar 2 0
  else if c == 'u' then hexChar 4 0
  else if c == 'U' then hexChar 8 0
  else if c == '0' then octalChar c
  else if isPlain c then throw .badEscape
  else return c

def setMember (flags : Flags) (c : Char) : ReadM (CharItem ⊕ Char) := do
  if c == '\\' then
    match ← next? with
    | none => throw .badEscape
    | some e =>
      if let some k := classOf? flags e then return .inl k
      if e == 'b' then return .inr '\x08'
      if isOctal e then return .inr (← octalChar e)
      return .inr (← escapedChar e)
  else return .inr c

def setItems (flags : Flags) : Nat → Bool → List CharItem → ReadM (List CharItem)
  | 0, _, _ => throw .unterminatedSet
  | fuel + 1, first, items => do
    match ← next? with
    | none => throw .unterminatedSet
    | some c =>
      if c == ']' && !first then return items.reverse
      let lo ← setMember flags c
      let alone := match lo with
        | .inl k => k
        | .inr a => .range a a
      if (← peek) == some '-' then
        skip
        match ← next? with
        | none => throw .unterminatedSet
        | some ']' => return (CharItem.range '-' '-' :: alone :: items).reverse
        | some d =>
          match lo, ← setMember flags d with
          | .inr a, .inr b =>
            if b < a then throw .badRange
            setItems flags fuel false (.range a b :: items)
          | _, _ => throw .badRange
      else setItems flags fuel false (alone :: items)

def digits : Nat → List Char → ReadM (List Char)
  | 0, acc => return acc.reverse
  | n + 1, acc => do
    match ← peek with
    | some c => if '0' ≤ c && c ≤ '9' then skip; digits n (c :: acc) else return acc.reverse
    | none => return acc.reverse

def number (cs : List Char) : Nat :=
  cs.foldl (fun n c => 10 * n + (c.toNat - '0'.toNat)) 0

/-- The counts in braces, whose opening brace has been passed; `none` if these are no counts. -/
def counts? : ReadM (Option (Nat × Option Nat)) := do
  let before ← get
  let fail : ReadM (Option (Nat × Option Nat)) := do set before; return none
  if (← peek) == some '\x7d' then return ← fail
  let lo ← digits before.rest.length []
  let mut hi := lo
  if (← peek) == some ',' then
    skip
    hi ← digits before.rest.length []
    if (← peek) != some '\x7d' then return ← fail
    skip
    let least := number lo
    if hi.isEmpty then return some (least, none)
    if number hi < least then throw .reversedCounts
    return some (least, some (number hi))
  if (← peek) != some '\x7d' then return ← fail
  skip
  return some (number lo, some (number lo))

def repetition? : ReadM (Option (Nat × Option Nat)) := do
  match ← peek with
  | some '*' => skip; return some (0, none)
  | some '+' => skip; return some (1, none)
  | some '?' => skip; return some (0, some 1)
  | some '\x7b' =>
    let before ← get
    skip
    match ← counts? with
    | some c => return some c
    | none => set before; return none
  | _ => return none

def nameUpTo (close : Char) : Nat → List Char → ReadM String
  | 0, _ => throw .badGroup
  | n + 1, acc => do
    match ← next? with
    | none => throw .badGroup
    | some c => if c == close then return String.ofList acc.reverse else nameUpTo close n (c :: acc)

def skipRemark : ReadM Unit := do
  if ← accept "(?#" then
    let _ ← nameUpTo ')' ((← get).rest.length + 1) []

/-- What was read for one item, as far as repetitions care. -/
inductive Item where
  | condition (p : Pattern)
  | repeated (p : Pattern)
  | plain (p : Pattern)

def Item.pattern : Item → Pattern
  | .condition p | .repeated p | .plain p => p

/-- Repetitions behind an item. A remark between them does not count. -/
def withRepetitions : Nat → Item → ReadM Item
  | 0, item => return item
  | fuel + 1, item => do
    skipRemark
    match ← repetition? with
    | none => return item
    | some (least, most) =>
      match item with
      | .condition _ => throw .nothingToRepeat
      | .repeated _ => throw .multipleRepeat
      | .plain p =>
        match ← peek with
        | some '?' => skip; withRepetitions fuel (.repeated (.rounds p least most false))
        | some '+' =>
          skip; withRepetitions fuel (.repeated (.committed (.rounds p least most true)))
        | _ => withRepetitions fuel (.repeated (.rounds p least most true))

def dot (flags : Flags) : Pattern :=
  if flags.dotAll then .char { items := [], negated := true }
  else .char { items := [.range '\n' '\n'], negated := true }

def oneChar (flags : Flags) (c : Char) : Pattern :=
  .char (if !flags.anyCase then .single c
    else if flags.ascii then { items := [.range c.toLower c.toLower, .range c.toUpper c.toUpper] }
    else .bothCases c)

def edge (flags : Flags) (negated : Bool) : Pattern :=
  if flags.ascii then
    let word := Pattern.char { items := [asciiWord false] }
    .alt (.seq (.behind word 1 negated) (.ahead word true))
      (.seq (.behind word 1 !negated) (.ahead word false))
  else .anchor (if negated then .notWordEdge else .wordEdge)

def escapedItem (flags : Flags) : ReadM Item := do
  match ← next? with
  | none => throw .badEscape
  | some c =>
    if let some k := classOf? flags c then return .plain (.char { items := [k] })
    match c with
    | 'b' => return .condition (edge flags false)
    | 'B' => return .condition (edge flags true)
    | 'A' => return .condition (.anchor .textStart)
    | 'Z' => return .condition (.anchor .veryEnd)
    | _ =>
      if '1' ≤ c && c ≤ '9' then
        let behind := (← get).rest.take 2
        if behind.length == 2 && (c :: behind).all isOctal then
          return .plain (oneChar flags (← octalChar c))
        let more ← digits 1 []
        let n := number (c :: more)
        if !(← get).closed.contains n then throw .badGroup
        return .plain (.again n)
      return .plain (oneChar flags (← escapedChar c))

def Flags.turn (value : Bool) (flags : Flags) : Char → Flags
  | 's' => { flags with dotAll := value }
  | 'm' => { flags with multiLine := value }
  | 'i' => { flags with anyCase := value }
  | 'x' => { flags with verbose := value }
  | 'a' => { flags with ascii := value }
  | _ => { flags with ascii := !value }

def flagLetters : ReadM (List Char) := do
  let letters := (← get).rest.takeWhile "aimsux".toList.contains
  modify fun r => { r with rest := r.rest.drop letters.length }
  if letters.contains 'a' && letters.contains 'u' then throw .badGroup
  return letters

/-- The flags inside a group, whose letters stand before a colon. -/
def groupFlags (flags : Flags) : ReadM Flags := do
  let on ← flagLetters
  let off ← if ← accept "-" then (do
      let off ← flagLetters
      if off.isEmpty || off.any (('a' :: 'u' :: on).contains ·) then throw .badGroup
      return off)
    else pure []
  if !(← accept ":") then throw .badGroup
  return off.foldl (Flags.turn false) (on.foldl (Flags.turn true) flags)

/-- What is left behind the blanks and the remarks in front. -/
def dropBlanks (inRemark : Bool) : List Char → List Char
  | [] => []
  | c :: cs =>
    if inRemark then dropBlanks (c != '\n') cs
    else if c == '#' then dropBlanks true cs
    else if " \t\n\r\x0b\x0c".toList.contains c then dropBlanks false cs
    else c :: cs

def skipBlanks (flags : Flags) : ReadM Unit :=
  modify fun r => if flags.verbose then { r with rest := dropBlanks false r.rest } else r

mutual

def alternatives (flags : Flags) : Nat → ReadM Pattern
  | 0 => throw .unbalanced
  | fuel + 1 => do
    let p ← sequence flags fuel .empty
    if (← peek) == some '|' then
      skip
      return .alt p (← alternatives flags fuel)
    else return p

def sequence (flags : Flags) : Nat → Pattern → ReadM Pattern
  | 0, _ => throw .unbalanced
  | fuel + 1, before => do
    skipBlanks flags
    match ← peek with
    | none | some '|' | some ')' => return before
    | some _ =>
      let item ← item flags fuel
      skipBlanks flags
      let p := (← withRepetitions (fuel + 1) item).pattern
      sequence flags fuel (if before == .empty then p else .seq before p)

def item (flags : Flags) : Nat → ReadM Item
  | 0 => throw .unbalanced
  | fuel + 1 => do
    match ← next? with
    | none => throw .unbalanced
    | some '.' => return .plain (dot flags)
    | some '^' => return .condition (.anchor (if flags.multiLine then .lineStart else .textStart))
    | some '$' => return .condition (.anchor (if flags.multiLine then .lineEnd else .textEnd))
    | some '\\' => escapedItem flags
    | some '[' =>
      let negated ← accept "^"
      let items ← setItems flags ((← get).rest.length + 1) true []
      return .plain (.char { items, negated, anyCase := flags.anyCase })
    | some '(' => parenthesis flags fuel
    | some c =>
      if c == '*' || c == '+' || c == '?' then throw .nothingToRepeat
      if c == '\x7b' then
        if (← counts?).isSome then throw .nothingToRepeat
      return .plain (oneChar flags c)

def parenthesis (flags : Flags) : Nat → ReadM Item
  | 0 => throw .unbalanced
  | fuel + 1 => do
    let close : ReadM Unit := do
      if (← next?) != some ')' then throw .unbalanced
    let inside : ReadM Pattern := do
      let p ← alternatives flags fuel
      close
      return p
    if !(← accept "?") then
      let index := (← get).groups + 1
      modify fun r => { r with groups := index }
      let p ← alternatives flags fuel
      close
      modify fun r => { r with closed := index :: r.closed }
      return .plain (.group index p)
    if ← accept ":" then return .plain (← inside)
    if ← accept "=" then return .plain (.ahead (← inside) false)
    if ← accept "!" then return .plain (.ahead (← inside) true)
    if ← accept ">" then return .plain (.committed (← inside))
    if ← accept "(" then
      let name ← nameUpTo ')' ((← get).rest.length + 1) []
      let index := ((← get).names.lookup name).getD
        (if name.all Char.isDigit then number name.toList else 0)
      if index == 0 || (← get).groups < index then throw .badGroup
      let p ← sequence flags fuel .empty
      let q ← if ← accept "|" then sequence flags fuel .empty else pure .empty
      close
      return .plain (.given index p q)
    if ← accept "<=" then lookBehind flags fuel false
    else if ← accept "<!" then lookBehind flags fuel true
    else if ← accept "#" then
      let _ ← nameUpTo ')' ((← get).rest.length + 1) []
      return .condition .empty
    else if ← accept "P<" then
      let name ← nameUpTo '>' ((← get).rest.length + 1) []
      let index := (← get).groups + 1
      modify fun r => { r with groups := index, names := (name, index) :: r.names }
      let p ← inside
      modify fun r => { r with closed := index :: r.closed }
      return .plain (.group index p)
    else if ← accept "P=" then
      let name ← nameUpTo ')' ((← get).rest.length + 1) []
      match (← get).names.lookup name with
      | some n => if (← get).closed.contains n then return .plain (.again n) else throw .badGroup
      | none => throw .badGroup
    else
      let inner ← groupFlags flags
      let p ← alternatives inner fuel
      close
      return .plain p

def lookBehind (flags : Flags) : Nat → Bool → ReadM Item
  | 0, _ => throw .unbalanced
  | fuel + 1, negated => do
    let p ← alternatives flags fuel
    if (← next?) != some ')' then throw .unbalanced
    match p.width? with
    | some n => return .plain (.behind p n negated)
    | none => throw .variableWidth

end

/-- The flags for the whole pattern, in parentheses at its start. -/
def leadingFlags : Nat → Flags → ReadM Flags
  | 0, flags => return flags
  | fuel + 1, flags => do
    skipBlanks flags
    let before ← get
    if ← accept "(?" then
      let letters ← flagLetters
      if !letters.isEmpty && (← accept ")") then
        return ← leadingFlags fuel (letters.foldl (Flags.turn true) flags)
    set before
    return flags

def whole (flags : Flags) (fuel : Nat) : ReadM Pattern := do
  let flags ← leadingFlags fuel flags
  let p ← alternatives flags fuel
  if (← get).rest.isEmpty then return p else throw .unbalanced

def parseWith (flags : Flags) (s : String) : Except PatternError Pattern :=
  let cs := s.toList
  ((whole flags (4 * cs.length + 4)).run { rest := cs, groups := 0, closed := [], names := [] }).map
    (·.1)

def parse (s : String) : Except PatternError Pattern := parseWith {} s

/-- A pattern that is known to be well written; the pattern of the empty stretch otherwise. -/
def ofString (s : String) : Pattern :=
  match parse s with
  | .ok p => p
  | .error _ => .empty

def ofStringWith (flags : Flags) (s : String) : Pattern :=
  match parseWith flags s with
  | .ok p => p
  | .error _ => .empty

def specialChars : List Char :=
  "()[]\x7b\x7d?*+-|^$\\.&~# \t\n\r\x0b\x0c".toList

def escape (s : String) : String :=
  String.ofList (s.toList.flatMap fun c => if specialChars.contains c then ['\\', c] else [c])

end Pattern

end CodeAtlas

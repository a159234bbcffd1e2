import CodeAtlas.Json.Basic

/-!
# Reading documents

Reads the interchange notation. Positions count characters; an error names the position at which
it was noticed, also as line and column. A field that is written twice keeps its first place and
its last value.
-/

namespace CodeAtlas

inductive JsonFlaw where
  | value
  | fieldName
  | colon
  | comma
  | unterminated
  | control
  | escape
  /-- A numbered escape is not followed by four hexadecimal digits. -/
  | numberedEscape
  | extra
  | byteOrderMark
deriving Repr, DecidableEq

structure JsonError where
  flaw : JsonFlaw
  pos : Nat
deriving Repr, DecidableEq

def JsonFlaw.message : JsonFlaw → String
  | .value => "Expecting value"
  | .fieldName => "Expecting property name enclosed in double quotes"
  | .colon => "Expecting ':' delimiter"
  | .comma => "Expecting ',' delimiter"
  | .unterminated => "Unterminated string starting at"
  | .control => "Invalid control character at"
  | .escape => "Invalid \\escape"
  | .numberedEscape => "Invalid \\uXXXX escape"
  | .extra => "Extra data"
  | .byteOrderMark => "Unexpected UTF-8 BOM (decode using utf-8-sig)"

def JsonError.message (e : JsonError) (source : String) : String :=
  let before := source.toList.take e.pos
  let line := before.count '\n' + 1
  let column := (before.reverse.takeWhile (· != '\n')).length + 1
  let what := e.flaw.message
  s!"{what}: line {line} column {column} (char {e.pos})"

namespace Json

structure Input where
  rest : List Char
  pos : Nat

def isGap (c : Char) : Bool := c == ' ' || c == '\t' || c == '\n' || c == '\r'

def Input.skipGaps (i : Input) : Input :=
  let gaps := (i.rest.takeWhile isGap).length
  ⟨i.rest.drop gaps, i.pos + gaps⟩

def Input.advance (i : Input) (n : Nat) : Input := ⟨i.rest.drop n, i.pos + n⟩

def hexValue? (c : Char) : Option Nat :=
  if '0' ≤ c && c ≤ '9' then some (c.toNat - 48)
  else if 'a' ≤ c && c ≤ 'f' then some (c.toNat - 87)
  else if 'A' ≤ c && c ≤ 'F' then some (c.toNat - 55)
  else none

def hex4? (cs : List Char) : Option Nat :=
  let ds := cs.take 4
  if ds.length == 4 then ds.foldlM (fun n c => (hexValue? c).map (16 * n + ·)) 0 else none

def escapeOf? : Char → Option Char
  | '"' => some '"'
  | '\\' => some '\\'
  | '/' => some '/'
  | 'b' => some '\x08'
  | 'f' => some '\x0c'
  | 'n' => some '\n'
  | 'r' => some '\r'
  | 't' => some '\t'
  | _ => none

/-- The characters of a text up to its closing quote. The text started at `start`. -/
def readText (start : Nat) : Nat → List Char → Input → Except JsonError (String × Input)
  | 0, _, _ => .error ⟨.unterminated, start⟩
  | fuel + 1, acc, i =>
    match i.rest with
    | [] => .error ⟨.unterminated, start⟩
    | '"' :: _ => .ok (String.ofList acc.reverse, i.advance 1)
    | '\\' :: 'u' :: cs =>
      match hex4? cs with
      | none => .error ⟨.numberedEscape, i.pos + 1⟩
      | some n =>
        -- suspended, or a pair would read the rest of the text twice
        let single (_ : Unit) := readText start fuel
          (Char.ofNat (if 0xd800 ≤ n && n < 0xe000 then 0xfffd else n) :: acc) (i.advance 6)
        if 0xd800 ≤ n && n < 0xdc00 then
          match cs.drop 4 with
          | '\\' :: 'u' :: more =>
            match hex4? more with
            | some m =>
              if 0xdc00 ≤ m && m < 0xe000 then
                readText start fuel
                  (Char.ofNat (0x10000 + (n - 0xd800) * 0x400 + (m - 0xdc00)) :: acc) (i.advance 12)
              else single ()
            | none => single ()
          | _ => single ()
        else single ()
    | ['\\'] => .error ⟨.unterminated, start⟩
    | '\\' :: c :: _ =>
      match escapeOf? c with
      | some k => readText start fuel (k :: acc) (i.advance 2)
      | none => .error ⟨.escape, i.pos⟩
    | c :: _ =>
      if c.toNat < 0x20 then .error ⟨.control, i.pos⟩
      else readText start fuel (c :: acc) (i.advance 1)

def isAsciiDigit (c : Char) : Bool := '0' ≤ c && c ≤ '9'

def natOfDigits (ds : List Char) : Nat := ds.foldl (fun n c => 10 * n + (c.toNat - 48)) 0

def readNumber? (i : Input) : Option (Json × Input) :=
  let negative := i.rest.head? == some '-'
  let body := if negative then i.rest.tail else i.rest
  let whole := match body with
    | '0' :: _ => ['0']
    | _ => body.takeWhile isAsciiDigit
  if whole.isEmpty then none
  else
    let afterWhole := body.drop whole.length
    let frac := match afterWhole with
      | '.' :: cs => cs.takeWhile isAsciiDigit
      | _ => []
    let afterFrac := if frac.isEmpty then afterWhole else afterWhole.drop (frac.length + 1)
    let (expLength, expNegative, exp) := match afterFrac with
      | e :: cs =>
        if e == 'e' || e == 'E' then
          let (signs, neg) := match cs with
            | '-' :: _ => (1, true)
            | '+' :: _ => (1, false)
            | _ => (0, false)
          let ds := (cs.drop signs).takeWhile isAsciiDigit
          if ds.isEmpty then (0, false, []) else (1 + signs + ds.length, neg, ds)
        else (0, false, [])
      | [] => (0, false, [])
    let fracLength := if frac.isEmpty then 0 else frac.length + 1
    let total := (if negative then 1 else 0) + whole.length + fracLength + expLength
    let rest := i.advance total
    if frac.isEmpty && exp.isEmpty then
      let n : Int := natOfDigits whole
      some (.int (if negative then -n else n), rest)
    else
      let m := natOfDigits (whole ++ frac)
      let e : Int :=
        (if expNegative then -(natOfDigits exp : Int) else natOfDigits exp) - frac.length
      let x := Float.ofScientific m (e < 0) e.natAbs
      some (.float (if negative then -x else x), rest)

def constants : List (String × Json) :=
  [("null", .null), ("true", .bool true), ("false", .bool false), ("NaN", .float (0.0 / 0.0)),
   ("Infinity", .float (1.0 / 0.0)), ("-Infinity", .float (-1.0 / 0.0))]

def readConstant? (i : Input) : Option (Json × Input) :=
  constants.findSome? fun (name, j) =>
    (Text.dropStart? name.toList i.rest).map fun rest => (j, ⟨rest, i.pos + name.length⟩)

def readName (i : Input) : Except JsonError (String × Input) :=
  match i.rest with
  | '"' :: _ => do
    let (k, rest) ← readText i.pos (i.rest.length + 1) [] (i.advance 1)
    let rest := rest.skipGaps
    match rest.rest with
    | ':' :: _ => return (k, (rest.advance 1).skipGaps)
    | _ => throw ⟨.colon, rest.pos⟩
  | _ => .error ⟨.fieldName, i.pos⟩

mutual

def readValue : Nat → Input → Except JsonError (Json × Input)
  | 0, i => .error ⟨.value, i.pos⟩
  | fuel + 1, i =>
    match i.rest with
    | '"' :: _ => do
      let (s, rest) ← readText i.pos (i.rest.length + 1) [] (i.advance 1)
      return (.str s, rest)
    | '[' :: _ =>
      let inner := (i.advance 1).skipGaps
      match inner.rest with
      | ']' :: _ => .ok (.arr [], inner.advance 1)
      | _ => readItems fuel [] inner
    | '\x7b' :: _ =>
      let inner := (i.advance 1).skipGaps
      match inner.rest with
      | '\x7d' :: _ => .ok (.obj [], inner.advance 1)
      | _ => readFields fuel [] inner
    | _ =>
      match readConstant? i with
      | some r => .ok r
      | none =>
        match readNumber? i with
        | some r => .ok r
        | none => .error ⟨.value, i.pos⟩

def readItems : Nat → List Json → Input → Except JsonError (Json × Input)
  | 0, _, i => .error ⟨.value, i.pos⟩
  | fuel + 1, acc, i => do
    let (j, rest) ← readValue fuel i
    let rest := rest.skipGaps
    match rest.rest with
    | ']' :: _ => return (.arr (j :: acc).reverse, rest.advance 1)
    | ',' :: _ => readItems fuel (j :: acc) (rest.advance 1).skipGaps
    | _ => throw ⟨.comma, rest.pos⟩

def readFields : Nat → List (String × Json) → Input → Except JsonError (Json × Input)
  | 0, _, i => .error ⟨.value, i.pos⟩
  | fuel + 1, acc, i => do
    let (k, rest) ← readName i
    let (v, rest) ← readValue fuel rest
    let rest := rest.skipGaps
    match rest.rest with
    | '\x7d' :: _ => return (.obj (setField acc k v), rest.advance 1)
    | ',' :: _ => readFields fuel (setField acc k v) (rest.advance 1).skipGaps
    | _ => throw ⟨.comma, rest.pos⟩

end

def parse (s : String) : Except JsonError Json := do
  let cs := s.toList
  if cs.head? == some '\ufeff' then throw ⟨.byteOrderMark, 0⟩
  let (j, rest) ← readValue (2 * cs.length + 2) (Input.mk cs 0).skipGaps
  let rest := rest.skipGaps
  if rest.rest.isEmpty then return j else throw ⟨.extra, rest.pos⟩

end Json

end CodeAtlas

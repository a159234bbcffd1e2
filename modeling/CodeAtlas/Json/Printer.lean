import CodeAtlas.Json.Basic
import CodeAtlas.Decimal.Render
import CodeAtlas.Text.Printable

/-!
# Writing documents

Two notations of plain data. The interchange notation writes texts in double quotes and, on
demand, escapes everything beyond ASCII and puts each item on a line of its own. The literal
notation is the one shown to people: texts in single quotes unless that would need escapes, and
`None`, `True` and `False` for the constants.
-/

namespace CodeAtlas

namespace Text

def hexDigit (n : Nat) : Char :=
  if n < 10 then Char.ofNat (48 + n) else Char.ofNat (87 + n)

def hexDigits (width n : Nat) : List Char :=
  go width n []
where
  go : Nat → Nat → List Char → List Char
    | 0, _, acc => acc
    | w + 1, n, acc => go w (n / 16) (hexDigit (n % 16) :: acc)

def escapeLetter? : Char → Option Char
  | '"' => some '"'
  | '\\' => some '\\'
  | '\n' => some 'n'
  | '\r' => some 'r'
  | '\t' => some 't'
  | '\x08' => some 'b'
  | '\x0c' => some 'f'
  | _ => none

def encodeChar (ascii : Bool) (c : Char) : List Char :=
  match escapeLetter? c with
  | some e => ['\\', e]
  | none =>
    let n := c.toNat
    if n < 0x20 || (ascii && 0x7f ≤ n && n < 0x10000) then '\\' :: 'u' :: hexDigits 4 n
    else if ascii && 0x10000 ≤ n then
      let v := n - 0x10000
      '\\' :: 'u' :: hexDigits 4 (0xd800 + v / 0x400) ++
        '\\' :: 'u' :: hexDigits 4 (0xdc00 + v % 0x400)
    else [c]

def encode (ascii : Bool) (s : String) : String :=
  String.ofList ('"' :: s.toList.flatMap (encodeChar ascii) ++ ['"'])

def literalChar (quote : Char) (c : Char) : List Char :=
  let n := c.toNat
  if c == quote || c == '\\' then ['\\', c]
  else if c == '\n' then ['\\', 'n']
  else if c == '\r' then ['\\', 'r']
  else if c == '\t' then ['\\', 't']
  else if n < 0x20 || n == 0x7f then '\\' :: 'x' :: hexDigits 2 n
  else if n < 0x7f then [c]
  else if isPrintable c then [c]
  else if n < 0x100 then '\\' :: 'x' :: hexDigits 2 n
  else if n < 0x10000 then '\\' :: 'u' :: hexDigits 4 n
  else '\\' :: 'U' :: hexDigits 8 n

/-- A text in quotes: single ones, unless it holds single quotes and no double ones. -/
def literal (s : String) : String :=
  let cs := s.toList
  let quote := if cs.contains '\'' && !cs.contains '"' then '"' else '\''
  String.ofList (quote :: cs.flatMap (literalChar quote) ++ [quote])

end Text

namespace Json

def renderFloat (x : Float) : String :=
  if x.isNaN then "NaN"
  else if x.isInf then (if Decimal.isNegative x then "-Infinity" else "Infinity")
  else Decimal.render x

structure Layout where
  ascii : Bool
  /-- The blanks by which each level is indented; all on one line if absent. -/
  indent : Option Nat
deriving Repr, DecidableEq

def Layout.between (l : Layout) (depth : Nat) : String :=
  match l.indent with
  | some n => ",\n" ++ Text.times " " (n * depth)
  | none => ", "

def Layout.opened (l : Layout) (depth : Nat) : String :=
  match l.indent with
  | some n => "\n" ++ Text.times " " (n * depth)
  | none => ""

mutual

def renderAt (l : Layout) (depth : Nat) : Json → String
  | .null => "null"
  | .bool b => if b then "true" else "false"
  | .int n => toString n
  | .float x => renderFloat x
  | .str s => Text.encode l.ascii s
  | .arr [] => "[]"
  | .arr items =>
    "[" ++ l.opened (depth + 1) ++
      Text.join (l.between (depth + 1)) (renderItems l (depth + 1) items) ++
      l.opened depth ++ "]"
  | .obj [] => "\x7b\x7d"
  | .obj fields =>
    "\x7b" ++ l.opened (depth + 1) ++
      Text.join (l.between (depth + 1)) (renderFields l (depth + 1) fields) ++
      l.opened depth ++ "\x7d"

def renderItems (l : Layout) (depth : Nat) : List Json → List String
  | [] => []
  | j :: rest => renderAt l depth j :: renderItems l depth rest

def renderFields (l : Layout) (depth : Nat) : List (String × Json) → List String
  | [] => []
  | (k, v) :: rest =>
    (Text.encode l.ascii k ++ ": " ++ renderAt l depth v) :: renderFields l depth rest

end

def render (l : Layout) (j : Json) : String := j.renderAt l 0

mutual

def literal : Json → String
  | .null => "None"
  | .bool b => if b then "True" else "False"
  | .int n => toString n
  | .float x => Decimal.render x
  | .str s => Text.literal s
  | .arr items => "[" ++ Text.join ", " (literalItems items) ++ "]"
  | .obj fields => "\x7b" ++ Text.join ", " (literalFields fields) ++ "\x7d"

def literalItems : List Json → List String
  | [] => []
  | j :: rest => literal j :: literalItems rest

def literalFields : List (String × Json) → List String
  | [] => []
  | (k, v) :: rest => (Text.literal k ++ ": " ++ literal v) :: literalFields rest

end

/-- The document as shown in running text: a text without quotes, all else in the literal
notation. -/
def shown : Json → String
  | .str s => s
  | j => j.literal

end Json

end CodeAtlas

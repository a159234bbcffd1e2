import CodeAtlas.Fault
import CodeAtlas.Source.Number
import CodeAtlas.Text.Alphanumeric
import CodeAtlas.Text.Numeral

/-!
# Tokens of indented sources

A source is read row by row. A line is a row with the rows on which it goes on: inside of brackets
and quotes, and behind a backslash. Rows without tokens are passed over. Where the scanner cannot
go on, the last line ends with a flaw.
-/

namespace CodeAtlas.Source

inductive TokenKind where
  | name
  | number
  | text (isBytes : Bool)
  | template (isRaw : Bool)
  | broken
  | sign
  /-- What stands behind the tokens of a line. -/
  | newline
  | flaw
deriving Repr, DecidableEq

inductive Flaw where
  | token
  | ending
  /-- A line is indented less than its block and more than the one around it. -/
  | unindent
deriving Repr, DecidableEq

def Flaw.fault : Flaw → Fault
  | .token => .grammar "invalid token"
  | .ending => .grammar "unexpected end"
  | .unindent => .indentation "unindent does not match any outer indentation level"

structure Token where
  kind : TokenKind
  text : String := ""
deriving Repr, DecidableEq

def Token.isText (t : Token) : Bool :=
  match t.kind with
  | .text _ | .template _ => true
  | _ => false

def Token.isBytes (t : Token) : Bool :=
  match t.kind with
  | .text isBytes => isBytes
  | _ => false

/-- A line with the rows of its first and its last token. -/
structure Line where
  first : Nat
  last : Nat
  indent : Nat
  tokens : List Token
deriving Repr, DecidableEq

def startsName (c : Char) : Bool :=
  c == '_' || (Text.isAlphanumeric c && !Text.isDecimal c)

/-- The character can go on in a name: also digits and combining marks. -/
def inName (c : Char) : Bool :=
  Text.isWordChar c || (0x300 ≤ c.toNat && c.toNat ≤ 0x36f)

def signs : List (List String) :=
  [["**=", "//=", ">>=", "<<=", "..."],
   ["**", "//", ">>", "<<", "->", ":=", "==", "!=", "<=", ">=", "+=", "-=", "*=", "/=", "%=", "@=",
    "&=", "|=", "^="],
   ["+", "-", "*", "/", "%", "@", "&", "|", "^", "~", "<", ">", "=", "(", ")", "[", "]",
    "\x7b", "\x7d",
    ",", ":", ".", ";", "!", "$", "?", "\x60"]]

def signAt? (cs : List Char) : Option String :=
  [3, 2, 1].findSome? fun n =>
    let s := String.ofList (cs.take n)
    if (signs.getD (3 - n) []).contains s then some s else none

def plainToken? (cs : List Char) : Option (Token × Nat) :=
  let startsWith := fun p => (cs.head?.map p).getD false
  if startsWith startsName then
    let name := cs.takeWhile inName
    some (⟨.name, String.ofList name⟩, name.length)
  else if startsWith isDigit ||
    (startsWith (· == '.') && (cs.tail.head?.map isDigit).getD false) then
    (numberEnd? cs).map fun after => (⟨.number, ""⟩, cs.length - after.length)
  else (signAt? cs).map fun sign => (⟨.sign, sign⟩, sign.length)

/-- The closing brackets that are waited for behind a token; none if it closes a wrong one. -/
def bracketsAfter? (brackets : List Char) (t : Token) : Option (List Char) :=
  if t.kind != .sign then some brackets
  else
    match t.text with
    | "(" => some (')' :: brackets)
    | "[" => some (']' :: brackets)
    | "\x7b" => some ('\x7d' :: brackets)
    | ")" | "]" | "\x7d" =>
      if t.text.toList.head? == brackets.head? then some brackets.tail else none
    | _ => some brackets

/-! ### Texts in quotes -/

structure OpenText where
  mark : String
  quote : Char
  triple : Bool
  read : List Char := []

inductive TextEnd where
  | closed
  | unclosed
  /-- The text is not closed, and a backslash stands in front of the end of its row. -/
  | escaped
deriving Repr, DecidableEq

def textMarks : List String := ["", "r", "u", "b", "f", "br", "rb", "fr", "rf"]

/-- The escapes in a text are well written: those with a number have all their digits, and those
with a name have braces. Bytes know only the shortest ones. -/
def escapesFit (isBytes : Bool) : List Char → Bool
  | '\\' :: c :: rest =>
    let width :=
      if c == 'x' then 2 else if isBytes then 0 else if c == 'u' then 4
      else if c == 'U' then 8 else 0
    let digits := rest.take width
    let named := !isBytes && c == 'N'
    digits.length == width && digits.all isHexDigit &&
      !(c == 'U' && !isBytes && !Text.startsWithAny (String.ofList digits) ["000", "0010"]) &&
      !(named && !(rest.head? == some '\x7b' && rest.contains '\x7d')) && escapesFit isBytes rest
  | _ :: rest => escapesFit isBytes rest
  | [] => true

namespace OpenText

def start? (cs : List Char) : Option (OpenText × Nat) :=
  let mark := String.ofList (cs.takeWhile inName)
  match cs.dropWhile inName with
  | q :: rest =>
    if (q == '"' || q == '\'') && textMarks.contains mark.toLower then
      let triple := rest.take 2 == [q, q]
      some ({ mark := mark.toLower, quote := q, triple }, mark.length + if triple then 3 else 1)
    else none
  | [] => none

def quotes (t : OpenText) : Nat := if t.triple then 3 else 1

def takeRow (t : OpenText) : List Char → List Char × TextEnd
  | [] => ([], .unclosed)
  | ['\\'] => (['\\'], .escaped)
  | '\\' :: c :: rest =>
    let (text, how) := t.takeRow rest
    ('\\' :: c :: text, how)
  | c :: rest =>
    if c == t.quote && (!t.triple || rest.take 2 == [c, c]) then ([], .closed)
    else
      let (text, how) := t.takeRow rest
      (c :: text, how)

def token (t : OpenText) : Token :=
  let isRaw := Text.occursIn "r" t.mark
  let isBytes := Text.occursIn "b" t.mark
  let kind : TokenKind :=
    if isBytes && t.read.any (0x80 ≤ ·.toNat) then .broken
    else if !isRaw && !escapesFit isBytes t.read then .broken
    else if Text.occursIn "f" t.mark then .template isRaw
    else .text isBytes
  ⟨kind, String.ofList t.read⟩

end OpenText

/-! ### Lines -/

structure Scanner where
  /-- The closing brackets that are waited for, the innermost first. -/
  brackets : List Char := []
  /-- The tokens read, the latest first. -/
  tokens : List Token := []
  text : Option OpenText := none
  /-- The row ends with a backslash. -/
  joined : Bool := false
  flaw : Option Flaw := none

/-- A line that was read to its end: the rows of its last token and of its end, and the rows
below. -/
structure Whole where
  scanner : Scanner
  last : Nat
  stop : Nat
  below : List (List Char)

namespace Scanner

def stop (s : Scanner) (flaw : Flaw) : Scanner := { s with flaw := some flaw }

def readText (s : Scanner) (t : OpenText) (cs : List Char) : Scanner × List Char :=
  let (text, how) := t.takeRow cs
  let t := { t with read := t.read ++ text }
  match how with
  | .closed =>
    ({ s with text := none, tokens := t.token :: s.tokens }, cs.drop (text.length + t.quotes))
  | .unclosed =>
    if t.triple then ({ s with text := some { t with read := t.read ++ ['\n'] } }, [])
    else (s.stop .token, [])
  | .escaped => ({ s with text := some { t with read := t.read ++ ['\n'] } }, [])

def readRow : Nat → Scanner → List Char → Scanner
  | 0, s, _ => s
  | _, s, [] => s
  | fuel + 1, s, c :: rest =>
    if c == ' ' || c == '\t' || c == '\x0c' then readRow fuel s rest
    else if c == '#' then s
    else if c == '\\' then
      if rest.isEmpty then { s with joined := true } else s.stop .ending
    else
      match OpenText.start? (c :: rest) with
      | some (t, n) =>
        let (s, rest) := s.readText t ((c :: rest).drop n)
        readRow fuel s rest
      | none =>
        match plainToken? (c :: rest) with
        | none => s.stop .token
        | some (t, n) =>
          match bracketsAfter? s.brackets t with
          | none => s.stop .token
          | some brackets =>
            readRow fuel { s with brackets, tokens := t :: s.tokens } ((c :: rest).drop n)

def nextRow (s : Scanner) (row : List Char) : Scanner :=
  let s := { s with joined := false }
  match s.text with
  | some t =>
    let (s, rest) := s.readText t row
    readRow rest.length s rest
  | none => readRow row.length s row

def goesOn (s : Scanner) : Bool :=
  s.flaw.isNone && (s.text.isSome || s.joined || !s.brackets.isEmpty)

/-- Reads a line whose row `n` was read to its end. -/
def readOn (s : Scanner) (last n : Nat) : List (List Char) → Whole
  | [] =>
    ⟨if s.goesOn then s.stop (if s.text.isSome then .token else .ending) else s, last, n, []⟩
  | row :: below =>
    if s.goesOn then
      let next := s.nextRow row
      -- behind a backslash a row need not have a token
      let last := if s.joined && next.tokens.length == s.tokens.length then last else n + 1
      next.readOn last (n + 1) below
    else ⟨s, last, n, row :: below⟩

theorem length_below_le (s : Scanner) (last n : Nat) (below : List (List Char)) :
    (s.readOn last n below).below.length ≤ below.length := by
  induction below generalizing s last n with
  | nil => exact Nat.le_refl 0
  | cons row below ih =>
      rw [readOn]
      split
      · exact Nat.le_succ_of_le (ih ..)
      · exact Nat.le_refl _

end Scanner

def indentOf (width : Nat) : List Char → Nat × List Char
  | ' ' :: rest => indentOf (width + 1) rest
  | '\t' :: rest => indentOf ((width / 8 + 1) * 8) rest
  | '\x0c' :: rest => indentOf 0 rest
  | cs => (width, cs)

/-- The lines of rows that are numbered from `n` on. An indent is known in front of the first row
if a backslash ends the row above. A flaw in front of a line is a line without tokens. -/
def readLines (n known : Nat) : List (List Char) → List Line × Option Flaw
  | [] => ([], none)
  | row :: below =>
    let (width, rest) := indentOf 0 row
    let indent := if known == 0 then width else known
    match rest with
    | [] | '#' :: _ => readLines (n + 1) 0 below
    | '\\' :: more =>
      if more.isEmpty && !below.isEmpty then readLines (n + 1) indent below
      else ([⟨n, n, indent, []⟩], some .ending)
    | rest =>
      let whole := (Scanner.readRow rest.length {} rest).readOn n n below
      have := (Scanner.readRow rest.length {} rest).length_below_le n n below
      let tokens := whole.scanner.tokens.reverse
      match whole.scanner.flaw with
      | some flaw => ([⟨n, whole.last, indent, tokens ++ [⟨.flaw, ""⟩]⟩], some flaw)
      | none =>
        let (lines, flaw) := readLines (whole.stop + 1) 0 whole.below
        (⟨n, whole.last, indent, tokens⟩ :: lines, flaw)
termination_by below => below.length
decreasing_by all_goals simp_wf; try omega

end CodeAtlas.Source

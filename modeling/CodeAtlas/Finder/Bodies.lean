import CodeAtlas.Positions

/-!
# Texts of functions

Where a function ends: at the brace that closes its first block, or where the indentation falls
back.
-/

namespace CodeAtlas.Finder

open Text

/-- How many characters a block takes up to the bracket that closes it, which is included. `depth`
blocks are open. -/
def blockLength? (opening closing : String) : Nat → List Char → Option Nat
  | 0, _ => some 0
  | _ + 1, [] => none
  | depth + 1, c :: cs =>
    let s := String.ofList [c]
    let depth' := if s == opening then depth + 2 else if s == closing then depth else depth + 1
    (blockLength? opening closing depth' cs).map (· + 1)

/-- The text from the line of a position up to the end of the first block behind the position;
empty if there is no whole block. -/
def blockBody (content : String) (start : Int) (opening closing : String) : String :=
  let cs := content.toList
  let from' := Positions.boundary cs.length start
  if (cs.length : Int) < start then ""
  else
    match findFrom? opening content from' with
    | none => ""
    | some i =>
      match blockLength? opening closing 1 (cs.drop (i + 1)) with
      | none => ""
      | some n =>
        let lineStart := match findLast? "\n" (take content from') with
          | some k => k + 1
          | none => 0
        slice content lineStart (i + 1 + n)

def indent (line : String) : Nat := (line.toList.takeWhile isBlank).length

/-- A line that belongs to a function whatever its indentation: empty or a comment. -/
def isFiller (line : String) : Bool :=
  let s := strip line
  s.isEmpty || startsWith s "#"

/-- The text of a function defined by indentation that starts at a line, counted from one; empty if
no function starts there. -/
def indentedBody (lines : List String) (startLine : Int) : Except Fault String := do
  if (lines.length : Int) < startLine then return ""
  let head ← Positions.nth lines (startLine - 1)
  if !startsWith (strip head) "def " then return ""
  let rest ← Positions.onwards lines startLine
  return join "\n" (head :: rest.takeWhile fun l => isFiller l || indent head < indent l)

def braceBalance (state : Int × Bool) (line : String) : Int × Bool :=
  line.toList.foldl (fun (n, opened) c =>
    if c == '\x7b' then (n + 1, true)
    else if c == '\x7d' then (n - 1, opened) else (n, opened)) state

def bracedLines (state : Int × Bool) : List String → List String
  | [] => []
  | line :: rest =>
    let state := braceBalance state line
    if state.2 && state.1 == 0 then [line] else line :: bracedLines state rest

/-- The text of a function defined by braces that starts at a line, counted from zero. -/
def bracedBody (lines : List String) (start : Int) : Except Fault String := do
  return join "\n" (bracedLines (0, false) (← Positions.onwards lines start))

/-- The text of the function that starts at a line, counted from zero; empty if none does. -/
def bodyAtLine (lines : List String) (index : Int) : Except Fault String := do
  if (lines.length : Int) ≤ index then return ""
  let line ← Positions.nth lines index
  if occursIn "\x7b" line then bracedBody lines index
  else if occursIn "def " line && occursIn ":" line then indentedBody lines (index + 1)
  else return ""

end CodeAtlas.Finder

import CodeAtlas.Fault

/-!
# Words of a command line

A command line is cut into words at blanks. Single quotes keep everything, double quotes keep
everything but backslashes before a double quote or a backslash, and a backslash outside of quotes
keeps the next character.
-/

namespace CodeAtlas.ShellWords

def isGap (c : Char) : Bool := c == ' ' || c == '\t' || c == '\r' || c == '\n'

inductive State where
  | plain
  | escaped
  | quoted (quote : Char)
  | quotedEscape
deriving Repr, DecidableEq

/-- The words read, the last first, and the word begun: none, or its characters, the last first. -/
structure Words where
  done : List String := []
  current : Option (List Char) := none
deriving Repr, DecidableEq

def Words.push (w : Words) (c : Char) : Words := { w with current := some (c :: w.current.getD []) }

def Words.open (w : Words) : Words := { w with current := some (w.current.getD []) }

def Words.close (w : Words) : Words :=
  match w.current with
  | some cs => { done := String.ofList cs.reverse :: w.done, current := none }
  | none => w

def scan : State → Words → List Char → Except Fault (List String)
  | .plain, w, [] => .ok w.close.done.reverse
  | .plain, w, c :: cs =>
    if isGap c then scan .plain w.close cs
    else if c == '\\' then scan .escaped w cs
    else if c == '"' || c == '\'' then scan (.quoted c) w.open cs
    else scan .plain (w.push c) cs
  | .escaped, _, [] => .error (.badValue "No escaped character")
  | .escaped, w, c :: cs => scan .plain (w.push c) cs
  | .quoted _, _, [] => .error (.badValue "No closing quotation")
  | .quoted q, w, c :: cs =>
    if c == q then scan .plain w cs
    else if c == '\\' && q == '"' then scan .quotedEscape w cs
    else scan (.quoted q) (w.push c) cs
  | .quotedEscape, _, [] => .error (.badValue "No escaped character")
  | .quotedEscape, w, c :: cs =>
    let w := if c == '\\' || c == '"' then w else w.push '\\'
    scan (.quoted '"') (w.push c) cs

def split (s : String) : Except Fault (List String) := scan .plain {} s.toList

end CodeAtlas.ShellWords

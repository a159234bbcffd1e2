import CodeAtlas.Text.Ranges

/-!
# Operations on texts

Searching, cutting and splitting, on lists of characters and on strings. Positions count
characters. All functions are total; a search that finds nothing answers `none`.
-/

namespace CodeAtlas.Text

/-! ### Lists of characters -/

def dropStart? : List Char → List Char → Option (List Char)
  | [], cs => some cs
  | _ :: _, [] => none
  | p :: ps, c :: cs => if p == c then dropStart? ps cs else none

def startsWithList (p cs : List Char) : Bool :=
  (dropStart? p cs).isSome

def findList? (p : List Char) : List Char → Option Nat
  | [] => if p.isEmpty then some 0 else none
  | c :: cs => if startsWithList p (c :: cs) then some 0 else (findList? p cs).map (· + 1)

/-- Splits at each occurrence of `sep`, scanning from the left; `skip` counts the characters of a
separator that are still to be passed over. The pieces come with the first one separated. -/
def splitListFrom (sep : List Char) : Nat → List Char → List Char × List (List Char)
  | _, [] => ([], [])
  | skip + 1, _ :: cs => splitListFrom sep skip cs
  | 0, c :: cs =>
    if startsWithList sep (c :: cs) then
      let (first, rest) := splitListFrom sep (sep.length - 1) cs
      ([], first :: rest)
    else
      let (first, rest) := splitListFrom sep 0 cs
      (c :: first, rest)

/-- The pieces between the occurrences of a separator, which is not empty. There is always at
least one piece. -/
def splitList (sep cs : List Char) : List (List Char) :=
  let (first, rest) := splitListFrom sep 0 cs
  first :: rest

/-- The words of a text: the maximal stretches without white space. -/
def wordsList (cs : List Char) : List (List Char) :=
  go [] cs
where
  go (word : List Char) : List Char → List (List Char)
    | [] => if word.isEmpty then [] else [word.reverse]
    | c :: cs =>
      if isBlank c then
        if word.isEmpty then go [] cs else word.reverse :: go [] cs
      else go (c :: word) cs

/-- The lines of a text, each with or without its end. A final line end opens no further line. -/
def linesList (keepEnds : Bool) (cs : List Char) : List (List Char) :=
  go [] cs
where
  go (line : List Char) : List Char → List (List Char)
    | [] => if line.isEmpty then [] else [line.reverse]
    | '\r' :: '\n' :: cs =>
      (if keepEnds then ('\n' :: '\r' :: line).reverse else line.reverse) :: go [] cs
    | c :: cs =>
      if isLineEnd c then (if keepEnds then (c :: line).reverse else line.reverse) :: go [] cs
      else go (c :: line) cs

/-- The rows of a text, each cut off where a character of the given kind ends it. A final one opens
no further row. -/
def rowsList (ends : Char → Bool) : List Char → List (List Char)
  | [] => []
  | c :: cs =>
    if ends c then [] :: rowsList ends cs
    else
      match rowsList ends cs with
      | [] => [[c]]
      | row :: rows => (c :: row) :: rows

def trimList (p : Char → Bool) (cs : List Char) : List Char :=
  ((cs.dropWhile p).reverse.dropWhile p).reverse

def trimEndList (p : Char → Bool) (cs : List Char) : List Char :=
  (cs.reverse.dropWhile p).reverse

/-! ### Strings -/

def size (s : String) : Nat := s.toList.length

def occursIn (p s : String) : Bool := (findList? p.toList s.toList).isSome

def find? (p s : String) : Option Nat := findList? p.toList s.toList

def findFrom? (p s : String) (start : Nat) : Option Nat :=
  (findList? p.toList (s.toList.drop start)).map (· + start)

def findLast? (p s : String) : Option Nat :=
  (findList? p.toList.reverse s.toList.reverse).map (s.toList.length - p.toList.length - ·)

def startsWith (s p : String) : Bool := startsWithList p.toList s.toList

def endsWith (s p : String) : Bool := startsWithList p.toList.reverse s.toList.reverse

def startsWithAny (s : String) (ps : List String) : Bool := ps.any (startsWith s ·)

def endsWithAny (s : String) (ps : List String) : Bool := ps.any (endsWith s ·)

/-- The pieces between the occurrences of a separator, which is not empty. -/
def split (s sep : String) : List String :=
  (splitList sep.toList s.toList).map String.ofList

def join (sep : String) (pieces : List String) : String :=
  sep.intercalate pieces

/-- All occurrences of `old`, which is not empty, replaced by `new`. -/
def replace (s old new : String) : String :=
  join new (split s old)

def words (s : String) : List String :=
  (wordsList s.toList).map String.ofList

def lines (s : String) : List String :=
  (linesList false s.toList).map String.ofList

def rows (s : String) : List (List Char) := rowsList (· == '\n') s.toList

/-- The lines of a text, cut at line feeds only; each keeps its end. -/
def linesKeepingFeed (s : String) : List String :=
  let pieces := split s "\n"
  let init := pieces.dropLast.map (· ++ "\n")
  match pieces.getLast? with
  | some last => if last.isEmpty then init else init ++ [last]
  | none => init

def strip (s : String) : String := String.ofList (trimList isBlank s.toList)

def stripEndChars (s : String) (chars : String) : String :=
  String.ofList (trimEndList (chars.toList.contains ·) s.toList)

/-- The characters from position `start` up to but not including `stop`. -/
def slice (s : String) (start stop : Nat) : String :=
  String.ofList ((s.toList.drop start).take (stop - start))

def drop (s : String) (n : Nat) : String := String.ofList (s.toList.drop n)

def take (s : String) (n : Nat) : String := String.ofList (s.toList.take n)

def dropEnd (s : String) (n : Nat) : String :=
  String.ofList (s.toList.take (s.toList.length - n))

def countChar (s : String) (c : Char) : Nat := s.toList.count c

def count (s p : String) : Nat := (split s p).length - 1

def times (s : String) (n : Nat) : String := String.join (List.replicate n s)

/-- Lines indented by blanks, between an empty line and a line of the indentation alone. -/
def block (indent : Nat) (lines : List String) : String :=
  let blanks := times " " indent
  join "\n" ([""] ++ lines.map (blanks ++ ·) ++ [blanks])

/-- The texts without repetitions, in the order of their first occurrence. -/
def distinct (l : List String) : List String :=
  l.foldl (fun acc s => if acc.contains s then acc else acc ++ [s]) []

def sorted (l : List String) : List String :=
  l.mergeSort fun a b => !decide (b < a)

def sortedSet (l : List String) : List String :=
  sorted (distinct l)

end CodeAtlas.Text

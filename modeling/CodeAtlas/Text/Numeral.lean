import CodeAtlas.Text.Basic

/-!
# Digits and numerals

The decimal digits of every script stand in runs of ten, zero first (Unicode version 14). A run
is given by its zero. Some further characters, such as superscripts and circled numerals, are
digits without being usable in a decimal numeral. Whole numbers are written in decimal digits of
any script.
-/

namespace CodeAtlas.Text

def decimalZeros : List Nat :=
  [0x30, 0x660, 0x6f0, 0x7c0, 0x966, 0x9e6, 0xa66, 0xae6, 0xb66, 0xbe6, 0xc66, 0xce6, 0xd66,
   0xde6, 0xe50, 0xed0, 0xf20, 0x1040, 0x1090, 0x17e0, 0x1810, 0x1946, 0x19d0, 0x1a80, 0x1a90,
   0x1b50, 0x1bb0, 0x1c40, 0x1c50, 0xa620, 0xa8d0, 0xa900, 0xa9d0, 0xa9f0, 0xaa50, 0xabf0, 0xff10,
   0x104a0, 0x10d30, 0x11066, 0x110f0, 0x11136, 0x111d0, 0x112f0, 0x11450, 0x114d0, 0x11650,
   0x116c0, 0x11730, 0x118e0, 0x11950, 0x11c50, 0x11d50, 0x11da0, 0x16a60, 0x16ac0, 0x16b50,
   0x1d7ce, 0x1d7d8, 0x1d7e2, 0x1d7ec, 0x1d7f6, 0x1e140, 0x1e2f0, 0x1e950, 0x1fbf0]

def typographicDigitRanges : List (Nat × Nat) :=
  rangesOf 0
    [178, 2, 5, 1, 4783, 9, 1640, 1, 1685, 1, 3, 6, 6, 10, 982, 9, 11, 9, 11, 9, 89, 1, 10, 9, 1, 1,
     630, 9, 1, 9, 1, 9, 58029, 4, 1052, 9, 489, 9, 57509, 11]

def decimalValue? (c : Char) : Option Nat :=
  (decimalZeros.find? fun z => z ≤ c.toNat && c.toNat < z + 10).map (c.toNat - ·)

def isDecimal (c : Char) : Bool :=
  (decimalValue? c).isSome

def isDigit (c : Char) : Bool :=
  isDecimal c || inRanges typographicDigitRanges c.toNat

/-- The number written by decimal digits; characters that are no digits count as zero. -/
def digitsValue (s : String) : Nat :=
  s.toList.foldl (fun n c => 10 * n + (decimalValue? c).getD 0) 0

/-- Reads digits that may be grouped by single underscores. `afterDigit` says that the character
before was a digit. -/
def groupedDigits? : Bool → Nat → List Char → Option Nat
  | afterDigit, n, [] => if afterDigit then some n else none
  | afterDigit, n, c :: cs =>
    match decimalValue? c with
    | some d => groupedDigits? true (10 * n + d) cs
    | none => if c == '_' && afterDigit then groupedDigits? false n cs else none

/-- White space that may stand around a number: all but the four separators of records. -/
def isNumberBlank (c : Char) : Bool := isBlank c && !('\x1c' ≤ c && c ≤ '\x1f')

def readInt? (s : String) : Option Int :=
  match trimList isNumberBlank s.toList with
  | '-' :: cs => (groupedDigits? false 0 cs).map fun n => -(n : Int)
  | '+' :: cs => (groupedDigits? false 0 cs).map fun n => (n : Int)
  | cs => (groupedDigits? false 0 cs).map fun n => (n : Int)

def allDigits (s : String) : Bool := !s.isEmpty && s.toList.all isDigit

end CodeAtlas.Text

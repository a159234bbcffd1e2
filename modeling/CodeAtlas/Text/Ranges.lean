/-!
# Tables of characters

A property of characters is given as a list of closed ranges of code points, ascending and apart.
The look-up stops at the first range that starts beyond the character. Long tables hold the lengths
of the gaps and the ranges in turn, packed into numbers.

White space is the Unicode property of that name together with the four information separators.
Line ends are a smaller set: vertical ones only, with a carriage return and a line feed in a row
counting as one.
-/

namespace CodeAtlas.Text

def inRanges : List (Nat × Nat) → Nat → Bool
  | [], _ => false
  | (lo, hi) :: rest, n => if n < lo then false else n ≤ hi || inRanges rest n

def rangesOf : Nat → List Nat → List (Nat × Nat)
  | start, gap :: length :: rest =>
    (start + gap, start + gap + length - 1) :: rangesOf (start + gap + length) rest
  | _, _ => []

/-- Positive numbers packed into one. Each four bits, the lowest first, are a digit in base eight
and a bit that is set if the number has further digits. -/
def unpack : Nat → Nat → List Nat
  | 0, _ => []
  | digits + 1, n =>
    if n = 0 then []
    else if n % 16 < 8 then n % 8 :: unpack digits (n / 16)
    else
      match unpack digits (n / 16) with
      | higher :: rest => (n % 8 + 8 * higher) :: rest
      | [] => []

def packedRanges (packed : List Nat) : List (Nat × Nat) :=
  rangesOf 0 (packed.flatMap (unpack 100))

/-- Letters at a fixed stride whose counterparts in the other case are all at one distance. -/
structure CaseRun where
  first : Nat
  last : Nat
  stride : Nat
  shift : Int
deriving Repr, DecidableEq

def CaseRun.covers (r : CaseRun) (n : Nat) : Bool :=
  r.first ≤ n && n ≤ r.last && (n - r.first) % r.stride == 0

def blankRanges : List (Nat × Nat) :=
  [(0x9, 0xd), (0x1c, 0x20), (0x85, 0x85), (0xa0, 0xa0), (0x1680, 0x1680), (0x2000, 0x200a),
   (0x2028, 0x2029), (0x202f, 0x202f), (0x205f, 0x205f), (0x3000, 0x3000)]

def isBlank (c : Char) : Bool :=
  inRanges blankRanges c.toNat

def isLineEnd (c : Char) : Bool :=
  let n := c.toNat
  (0xa ≤ n && n ≤ 0xd) || (0x1c ≤ n && n ≤ 0x1e) || n == 0x85 || n == 0x2028 || n == 0x2029

end CodeAtlas.Text

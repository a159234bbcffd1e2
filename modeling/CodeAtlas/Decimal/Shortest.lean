/-!
# Shortest decimals

A finite double is a natural number times a power of two. The reals that round to it form an
interval, and among the decimals in the interval those with the fewest digits are taken, of these
the nearest. All comparisons are between natural numbers.
-/

namespace CodeAtlas.Decimal

/-- A finite double without its sign: `mantissa * 2 ^ exponent`. -/
structure Binary where
  mantissa : Nat
  exponent : Int
  /-- The gap to the double below is half the gap to the double above. -/
  narrowBelow : Bool
deriving Repr, DecidableEq

def Binary.ofBits (bits : UInt64) : Binary :=
  let e := ((bits >>> 52) &&& 0x7FF).toNat
  let f := (bits &&& 0xFFFFFFFFFFFFF).toNat
  if e == 0 then ⟨f, -1074, false⟩ else ⟨Nat.pow 2 52 + f, (e : Int) - 1075, f == 0 && e > 1⟩

structure Scaled where
  digits : Nat
  exponent : Int
deriving Repr, DecidableEq

def compareScaled (a : Nat) (i : Int) (n : Nat) (j : Int) : Ordering :=
  compare (a * Nat.pow 10 i.toNat * Nat.pow 2 (-j).toNat)
    (n * Nat.pow 2 j.toNat * Nat.pow 10 (-i).toNat)

/-- The decimal lies among the reals that round to the double, ties to even. -/
def Binary.readsBack (x : Binary) (d : Scaled) : Bool :=
  let lo := if x.narrowBelow then 4 * x.mantissa - 1 else 4 * x.mantissa - 2
  let hi := 4 * x.mantissa + 2
  let closed := x.mantissa % 2 == 0
  let below := compareScaled d.digits d.exponent lo (x.exponent - 2)
  let above := compareScaled d.digits d.exponent hi (x.exponent - 2)
  (below == .gt || (closed && below == .eq)) && (above == .lt || (closed && above == .eq))

def Binary.floorAt (x : Binary) (grid : Int) : Nat :=
  (x.mantissa * Nat.pow 2 x.exponent.toNat * Nat.pow 10 (-grid).toNat) /
    (Nat.pow 2 (-x.exponent).toNat * Nat.pow 10 grid.toNat)

/-- The least `k` with `x < 10 ^ k`, searched upwards from a start that is too small. -/
def Binary.scaleFrom (x : Binary) : Nat → Int → Int
  | 0, k => k
  | fuel + 1, k =>
    if compareScaled 1 k x.mantissa x.exponent == .gt then k else x.scaleFrom fuel (k + 1)

/-- The least `k` with `x < 10 ^ k`. -/
def Binary.scale (x : Binary) : Int :=
  let log := (x.mantissa.log2 : Int) + x.exponent
  x.scaleFrom 8 ((log * 30103).fdiv 100000 - 1)

/-- The neighbour of the double on a grid that reads back, the nearer one if both do, and the even
one of two that are equally near. -/
def Binary.onGrid? (x : Binary) (grid : Int) : Option Scaled :=
  let lo := x.floorAt grid
  let down : Scaled := ⟨lo, grid⟩
  let up : Scaled := ⟨lo + 1, grid⟩
  match x.readsBack down, x.readsBack up with
  | true, true =>
    match compareScaled (2 * lo + 1) grid (2 * x.mantissa) x.exponent with
    | .gt => some down
    | .lt => some up
    | .eq => some (if lo % 2 == 0 then down else up)
  | true, false => some down
  | false, true => some up
  | false, false => none

def Scaled.strip : Nat → Scaled → Scaled
  | 0, d => d
  | fuel + 1, d =>
    if d.digits != 0 && d.digits % 10 == 0 then Scaled.strip fuel ⟨d.digits / 10, d.exponent + 1⟩
    else d

def Binary.exact (x : Binary) : Scaled :=
  if 0 ≤ x.exponent then ⟨x.mantissa * Nat.pow 2 x.exponent.toNat, 0⟩
  else ⟨x.mantissa * Nat.pow 5 (-x.exponent).toNat, x.exponent⟩

/-- The shortest decimal that reads back as the double, which is not zero. -/
def Binary.shortest (x : Binary) : Scaled :=
  let k := x.scale
  let found := (List.range 17).findSome? fun n => x.onGrid? (k - (n + 1 : Nat))
  (found.getD x.exact).strip 400

end CodeAtlas.Decimal

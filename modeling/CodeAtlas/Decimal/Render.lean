import CodeAtlas.Decimal.Shortest

/-!
# Decimal notation

Doubles are written with the fewest digits that identify them, positionally while the exponent of
the leading digit is at least -4 and below 16, and otherwise with a signed exponent of at least
two digits. A positional number always shows a decimal point. Numbers with a fixed number of
places are rounded from the exact value, ties to even.
-/

namespace CodeAtlas.Decimal

def isNegative (x : Float) : Bool := x.toBits >>> 63 == 1

def digitsOf (n : Nat) : List Char := Nat.toDigits 10 n

def layout (d : Scaled) : String :=
  let ds := digitsOf d.digits
  let n := ds.length
  let lead := d.exponent + (n : Int) - 1
  if -4 ≤ lead && lead < 16 then
    if 0 ≤ d.exponent then
      String.ofList (ds ++ List.replicate d.exponent.toNat '0' ++ ['.', '0'])
    else if 0 ≤ lead then
      let k := (lead + 1).toNat
      String.ofList (ds.take k ++ '.' :: ds.drop k)
    else
      String.ofList ('0' :: '.' :: List.replicate (-lead - 1).toNat '0' ++ ds)
  else
    let head := match ds with
      | [c] => [c]
      | c :: rest => c :: '.' :: rest
      | [] => []
    let e := digitsOf lead.natAbs
    let e := if e.length < 2 then '0' :: e else e
    String.ofList (head ++ 'e' :: (if lead < 0 then '-' else '+') :: e)

def render (x : Float) : String :=
  if x.isNaN then "nan"
  else if x.isInf then (if isNegative x then "-inf" else "inf")
  else
    let sign := if isNegative x then "-" else ""
    if x == 0.0 then sign ++ "0.0" else sign ++ layout (Binary.ofBits x.toBits).shortest

def roundDiv (num den : Nat) : Nat :=
  let q := num / den
  match compare (2 * (num % den)) den with
  | .lt => q
  | .gt => q + 1
  | .eq => if q % 2 == 0 then q else q + 1

/-- A natural number of units of `10 ^ -places`, with a decimal point. -/
def placed (n places : Nat) : String :=
  let ds := digitsOf n
  let ds := List.replicate (places + 1 - ds.length) '0' ++ ds
  if places == 0 then String.ofList ds
  else String.ofList (ds.take (ds.length - places) ++ '.' :: ds.drop (ds.length - places))

def renderFixed (x : Float) (places : Nat) : String :=
  if x.isNaN then "nan"
  else if x.isInf then (if isNegative x then "-inf" else "inf")
  else
    let sign := if isNegative x then "-" else ""
    let b := Binary.ofBits x.toBits
    let num := b.mantissa * Nat.pow 2 b.exponent.toNat * Nat.pow 10 places
    sign ++ placed (roundDiv num (Nat.pow 2 (-b.exponent).toNat)) places

end CodeAtlas.Decimal

import CodeAtlas.Text.Basic

/-!
# Numbers in sources

A number is a row of digits, which single underscores may group, with a fraction, an exponent and
an imaginary unit, or a row of digits of another base behind its mark. A row of digits that starts
with zero is zero. What follows a number must not look like a part of it.
-/

namespace CodeAtlas.Source

def isDigit (c : Char) : Bool := '0' ≤ c && c ≤ '9'

def isHexDigit (c : Char) : Bool :=
  isDigit c || ('a' ≤ c && c ≤ 'f') || ('A' ≤ c && c ≤ 'F')

def digitsEnd? (ofBase : Char → Bool) : List Char → Option (List Char)
  | [] => some []
  | ['_'] => none
  | '_' :: d :: rest => if ofBase d then digitsEnd? ofBase rest else none
  | c :: rest => if ofBase c then digitsEnd? ofBase rest else some (c :: rest)

def basedEnd? (ofBase : Char → Bool) : List Char → Option (List Char)
  | '_' :: d :: rest | d :: rest => if ofBase d then digitsEnd? ofBase rest else none
  | [] => none

def wordsAfterNumber : List String := ["and", "else", "for", "if", "in", "is", "not", "or"]

def endsNumber (cs : List Char) : Bool :=
  wordsAfterNumber.any (fun w => Text.startsWithList w.toList cs) ||
    match cs with
    | [] => true
    | c :: _ => !(c.isAlphanum || c == '_' || 0x80 ≤ c.toNat)

def fractionEnd? : List Char → Option (List Char)
  | '.' :: d :: rest => if isDigit d then digitsEnd? isDigit rest else some (d :: rest)
  | ['.'] => some []
  | cs => some cs

/-- What follows the exponent, if there is one. A sign must be followed by a digit. -/
def exponentEnd? (cs : List Char) : Option (List Char) :=
  match cs with
  | e :: rest =>
    if e == 'e' || e == 'E' then
      match rest with
      | sign :: more =>
        if sign == '+' || sign == '-' then
          match more with
          | d :: rest => if isDigit d then digitsEnd? isDigit rest else none
          | [] => none
        else if isDigit sign then digitsEnd? isDigit more
        else some cs
      | [] => some cs
    else some cs
  | [] => some cs

def imaginaryEnd : List Char → List Char
  | c :: rest => if c == 'j' || c == 'J' then rest else c :: rest
  | [] => []

def decimalEnd? (cs : List Char) : Option (List Char) := do
  let whole ← if (cs.head?.map isDigit).getD false then digitsEnd? isDigit cs.tail else some cs
  let rest := imaginaryEnd (← exponentEnd? (← fractionEnd? whole))
  let digits := cs.take (cs.length - whole.length)
  let padded := digits.head? == some '0' && digits.any fun c => c != '0' && c != '_'
  if padded && rest.length == whole.length then none else some rest

/-- What follows the number that starts here; none if it is badly written. -/
def numberEnd? (cs : List Char) : Option (List Char) := do
  let rest ← match cs with
    | '0' :: mark :: rest =>
      if mark == 'x' || mark == 'X' then basedEnd? isHexDigit rest
      else if mark == 'o' || mark == 'O' then basedEnd? (fun c => '0' ≤ c && c ≤ '7') rest
      else if mark == 'b' || mark == 'B' then basedEnd? (fun c => c == '0' || c == '1') rest
      else decimalEnd? cs
    | _ => decimalEnd? cs
  if endsNumber rest then some rest else none

end CodeAtlas.Source

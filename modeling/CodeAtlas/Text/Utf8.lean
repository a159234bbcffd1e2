import CodeAtlas.Text.Basic

/-!
# Texts as bytes

The UTF-8 encoding, a decoder that either refuses malformed bytes or passes over them, and the
convention by which line ends are read.
-/

namespace CodeAtlas.Text

def encodeUtf8 (s : String) : List UInt8 := s.toList.flatMap String.utf8EncodeChar

def tails? (b : UInt8) : Option (Nat × UInt8 × UInt8) :=
  if b < 0x80 then some (0, 0, 0)
  else if 0xc2 ≤ b && b ≤ 0xdf then some (1, 0x80, 0xbf)
  else if b == 0xe0 then some (2, 0xa0, 0xbf)
  else if b == 0xed then some (2, 0x80, 0x9f)
  else if 0xe1 ≤ b && b ≤ 0xef then some (2, 0x80, 0xbf)
  else if b == 0xf0 then some (3, 0x90, 0xbf)
  else if 0xf1 ≤ b && b ≤ 0xf3 then some (3, 0x80, 0xbf)
  else if b == 0xf4 then some (3, 0x80, 0x8f)
  else none

def leadBits (b : UInt8) (tails : Nat) : Nat :=
  match tails with
  | 0 => b.toNat
  | 1 => b.toNat % 0x20
  | 2 => b.toNat % 0x10
  | _ => b.toNat % 0x08

/-- The state of the decoder: nothing pending, or a character begun, with the tails still owed, the
bounds of the next one and the bits so far. -/
inductive Utf8State where
  | start
  | inside (owed : Nat) (lo hi : UInt8) (bits : Nat)

/-- One step at the start of a character: the state after a byte, the characters completed and
whether the byte was malformed. -/
def utf8First (b : UInt8) : Utf8State × List Char × Bool :=
  match tails? b with
  | some (0, _, _) => (.start, [Char.ofNat b.toNat], false)
  | some (n, lo, hi) => (.inside n lo hi (leadBits b n), [], false)
  | none => (.start, [], true)

def utf8Step (s : Utf8State) (b : UInt8) : Utf8State × List Char × Bool :=
  match s with
  | .start => utf8First b
  | .inside owed lo hi bits =>
    if lo ≤ b && b ≤ hi then
      let bits := bits * 64 + b.toNat % 0x40
      if owed ≤ 1 then (.start, [Char.ofNat bits], false)
      else (.inside (owed - 1) 0x80 0xbf bits, [], false)
    else
      let (s, cs, _) := utf8First b
      (s, cs, true)

/-- A byte in the decoder, with what was read before: the state, the characters, last first, and
whether some bytes were malformed. -/
def decodeByte (read : Utf8State × List Char × Bool) (b : UInt8) : Utf8State × List Char × Bool :=
  let (s, cs, wrong) := utf8Step read.1 b
  (s, cs.reverse ++ read.2.1, read.2.2 || wrong)

def decodeUtf8 (bytes : List UInt8) : List Char × Bool :=
  let (s, acc, bad) := bytes.foldl decodeByte (.start, [], false)
  match s with
  | .start => (acc.reverse, bad)
  | .inside .. => (acc.reverse, true)

def unifyLineEnds : List Char → List Char
  | [] => []
  | '\r' :: '\n' :: cs => '\n' :: unifyLineEnds cs
  | '\r' :: cs => '\n' :: unifyLineEnds cs
  | c :: cs => c :: unifyLineEnds cs

end CodeAtlas.Text

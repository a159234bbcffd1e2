import CodeAtlas.Pattern.Basic

/-!
# Searching with patterns

The leftmost match, all matches from left to right without overlap, and the stretches remembered
by a match. After an empty match the search goes on at the same position and asks for more than
nothing there.
-/

namespace CodeAtlas

structure Match where
  text : Array Char
  start : Nat
  stop : Nat
  /-- The stretches remembered, the latest first. -/
  captures : List Capture
deriving Repr

namespace Match

def between (text : Array Char) (start stop : Nat) : String :=
  String.ofList (text.extract start stop).toList

def whole (m : Match) : String := between m.text m.start m.stop

def group? (m : Match) (index : Nat) : Option String :=
  (m.captures.find? (·.index == index)).map fun c => between m.text c.start c.stop

/-- The stretch of a group, empty if the group took no part. -/
def group (m : Match) (index : Nat) : String := (m.group? index).getD ""

def groupStart? (m : Match) (index : Nat) : Option Nat :=
  (m.captures.find? (·.index == index)).map (·.start)

end Match

namespace Pattern

/-- The preferred match that starts at a position; on demand only one that is not empty. -/
def matchAt? (p : Pattern) (text : Array Char) (start : Nat) (nonempty : Bool) : Option Match :=
  let accept := fun (st : Progress) => if nonempty && st.pos == start then none else some st
  (p.run text accept { pos := start, captures := [] }).map fun st =>
    { text := text, start := start, stop := st.pos, captures := st.captures }

/-- The leftmost match among the `n + 1` positions from `start` on; only the first position asks
for a match that is not empty. -/
def searchFrom? (p : Pattern) (text : Array Char) (nonempty : Bool) (start : Nat) :
    Nat → Option Match
  | 0 => p.matchAt? text start nonempty
  | n + 1 =>
    match p.matchAt? text start nonempty with
    | some m => some m
    | none => searchFrom? p text false (start + 1) n

def findAllFrom (p : Pattern) (text : Array Char) : Nat → Nat → Bool → List Match
  | 0, _, _ => []
  | bound + 1, start, nonempty =>
    if text.size < start then []
    else
      match p.searchFrom? text nonempty start (text.size - start) with
      | some m => m :: findAllFrom p text bound m.stop (m.stop == m.start)
      | none => []

def matchStart? (p : Pattern) (s : String) : Option Match :=
  p.matchAt? s.toList.toArray 0 false

def search? (p : Pattern) (s : String) : Option Match :=
  let text := s.toList.toArray
  p.searchFrom? text false 0 text.size

def foundIn (p : Pattern) (s : String) : Bool := (p.search? s).isSome

def findAll (p : Pattern) (s : String) : List Match :=
  let text := s.toList.toArray
  p.findAllFrom text (2 * text.size + 2) 0 false

end Pattern

end CodeAtlas

import CodeAtlas.Fault

/-!
# Positions in lists

Positions are integers; a negative one counts from the end.
-/

namespace CodeAtlas.Positions

variable {α : Type}

def nth? (l : List α) (i : Int) : Option α :=
  if 0 ≤ i then l[i.toNat]? else if -(l.length : Int) ≤ i then l[(l.length + i).toNat]? else none

def nth (l : List α) (i : Int) : Except Fault α :=
  match nth? l i with
  | some a => .ok a
  | none => .error (.outOfRange "list index out of range")

def boundary (size : Nat) (i : Int) : Nat :=
  if i < 0 then (size + i).toNat else min i.toNat size

def upTo (l : List α) (i : Int) : List α := l.take (boundary l.length i)

/-- The items met when counting from a position up to the end of the list. A negative start counts
from the end first and then goes through the whole list. -/
def onwards (l : List α) (start : Int) : Except Fault (List α) :=
  if 0 ≤ start then .ok (l.drop start.toNat)
  else if -(l.length : Int) ≤ start then .ok (l.drop (l.length + start).toNat ++ l)
  else .error (.outOfRange "list index out of range")

end CodeAtlas.Positions

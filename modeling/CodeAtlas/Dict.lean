/-!
# Ordered dictionaries

A dictionary is the list of its entries, in the order in which the keys first arrived. Writing to
a key that is present keeps its place.
-/

namespace CodeAtlas

abbrev Dict (α : Type) := List (String × α)

namespace Dict

variable {α β : Type}

def get? (d : Dict α) (key : String) : Option α := d.lookup key

def has (d : Dict α) (key : String) : Bool := (d.get? key).isSome

/-- The dictionary with one value written: in place if the key is present, at the end otherwise. -/
def set : Dict α → String → α → Dict α
  | [], key, value => [(key, value)]
  | (k, v) :: rest, key, value =>
    if k == key then (k, value) :: rest else (k, v) :: Dict.set rest key value

def adjust (d : Dict α) (key : String) (f : α → α) : Dict α :=
  d.map fun (k, v) => if k == key then (k, f v) else (k, v)

def erase (d : Dict α) (key : String) : Dict α := d.filter (·.1 != key)

def keys (d : Dict α) : List String := d.map (·.1)

def values (d : Dict α) : List α := d.map (·.2)

def ofPairs (l : List (String × α)) : Dict α :=
  l.foldl (fun d (k, v) => Dict.set d k v) []

def push (d : Dict (List β)) (key : String) (item : β) : Dict (List β) :=
  match d.get? key with
  | some l => Dict.set d key (l ++ [item])
  | none => Dict.set d key [item]

end Dict

/-- The list with an item at its end, unless it is there already. -/
def addNew (l : List String) (item : String) : List String :=
  if l.contains item then l else l ++ [item]

/-- The list with several items added one after the other, each unless it is there already. -/
def addAllNew (l items : List String) : List String := items.foldl addNew l

end CodeAtlas

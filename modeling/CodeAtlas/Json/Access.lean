import CodeAtlas.Json.Basic

/-!
# Reading plain data leniently

Data that does not have the shape asked for counts as empty. These functions serve documents whose
shape is known.
-/

namespace CodeAtlas.Json

def text (j : Json) : String := j.str?.getD ""

def whole (j : Json) : Int := j.int?.getD 0

def isTrue (j : Json) : Bool := j.bool?.getD false

def ofEntries (entries : List (String × Json)) : Json :=
  .arr (entries.map fun (k, v) => .arr [.str k, v])

def items (j : Json) : List Json := j.arr?.getD []

def fields (j : Json) : List (String × Json) := j.obj?.getD []

def texts (j : Json) : List String := j.items.map text

def number : Json → Float
  | .float x => x
  | .int n => Float.ofInt n
  | _ => 0.0

def field (j : Json) (key : String) : Json := j.getD key .null

def textAt (j : Json) (key default : String) : String := ((j.get? key).bind str?).getD default

def boolAt (j : Json) (key : String) (default : Bool) : Bool :=
  ((j.get? key).bind bool?).getD default

def intAt (j : Json) (key : String) (default : Int) : Int := ((j.get? key).bind int?).getD default

def itemsAt (j : Json) (key : String) : List Json := (j.field key).items

def textsAt (j : Json) (key : String) : List String := (j.field key).texts

def item (j : Json) (n : Nat) : Json := j.items.getD n .null

def wordAt (j : Json) (n : Nat) : String := (j.item n).text

def ofSet (l : List String) : Json := .ofStrings (Text.sortedSet l)

def arguments (names : List String) (items : List Json) : List (String × Json) :=
  match items.getLast? with
  | some (.obj fields) => names.zip items.dropLast ++ fields
  | _ => names.zip items

mutual

def mapTexts (f : String → String) : Json → Json
  | .str s => .str (f s)
  | .arr l => .arr (mapTextsList f l)
  | .obj l => .obj (mapTextsFields f l)
  | j => j

def mapTextsList (f : String → String) : List Json → List Json
  | [] => []
  | j :: rest => mapTexts f j :: mapTextsList f rest

def mapTextsFields (f : String → String) : List (String × Json) → List (String × Json)
  | [] => []
  | (k, v) :: rest => (f k, mapTexts f v) :: mapTextsFields f rest

end

mutual

def depth : Json → Nat
  | .arr l => depthList l + 1
  | .obj l => depthFields l + 1
  | _ => 0

def depthList : List Json → Nat
  | [] => 0
  | j :: rest => max (depth j) (depthList rest)

def depthFields : List (String × Json) → Nat
  | [] => 0
  | (_, v) :: rest => max (depth v) (depthFields rest)

end

end CodeAtlas.Json

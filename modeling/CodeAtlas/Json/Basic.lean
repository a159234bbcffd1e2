import CodeAtlas.Text.Basic

/-!
# Documents

Plain data: null, truth values, numbers, texts, lists and objects. The fields of an object keep
the order in which they first arrived.
-/

namespace CodeAtlas

inductive Json where
  | null
  | bool (b : Bool)
  | int (n : Int)
  | float (x : Float)
  | str (s : String)
  | arr (items : List Json)
  | obj (fields : List (String × Json))
deriving Inhabited, Repr

namespace Json

/-- A float has the value of a whole number, without rounding that. -/
def sameNumber (a : Int) (b : Float) : Bool :=
  let (m, e) := b.frExp
  b.isFinite && Float.ofInt a == b &&
    (e ≤ 53 || a == (m.scaleB 53).toInt64.toInt * Int.pow 2 (e - 53).toNat)

mutual

/-- Equality of data; the order of the fields of an object does not count. Numbers are equal if
their values are. -/
def same : Json → Json → Bool
  | .null, .null => true
  | .bool a, .bool b => a == b
  | .bool a, .int b | .int b, .bool a => b == a.toInt
  | .bool a, .float b | .float b, .bool a => sameNumber a.toInt b
  | .int a, .int b => a == b
  | .float a, .float b => a == b
  | .int a, .float b | .float b, .int a => sameNumber a b
  | .str a, .str b => a == b
  | .arr a, .arr b => sameItems a b
  | .obj a, .obj b => a.length == b.length && sameFields a b
  | _, _ => false

def sameItems : List Json → List Json → Bool
  | [], [] => true
  | a :: as, b :: bs => same a b && sameItems as bs
  | _, _ => false

def sameFields : List (String × Json) → List (String × Json) → Bool
  | [], _ => true
  | (k, v) :: rest, b =>
    (match b.lookup k with
      | some w => same v w
      | none => false) && sameFields rest b

end

instance : BEq Json := ⟨same⟩

def get? (j : Json) (key : String) : Option Json :=
  match j with
  | .obj fields => fields.lookup key
  | _ => none

def getD (j : Json) (key : String) (default : Json) : Json :=
  (j.get? key).getD default

/-- The fields of an object with one written: in place if present, at the end otherwise. -/
def setField (fields : List (String × Json)) (key : String) (value : Json) :
    List (String × Json) :=
  match fields with
  | [] => [(key, value)]
  | (k, v) :: rest => if k == key then (k, value) :: rest else (k, v) :: setField rest key value

def str? : Json → Option String
  | .str s => some s
  | _ => none

def int? : Json → Option Int
  | .int n => some n
  | _ => none

def bool? : Json → Option Bool
  | .bool b => some b
  | _ => none

def arr? : Json → Option (List Json)
  | .arr l => some l
  | _ => none

def obj? : Json → Option (List (String × Json))
  | .obj l => some l
  | _ => none

def literalText : Json → String
  | .null => "None"
  | .bool b => if b then "True" else "False"
  | .int n => toString n
  | .str s => s
  | _ => ""

def kindName : Json → String
  | .null => "NoneType"
  | .bool _ => "bool"
  | .int _ => "int"
  | .float _ => "float"
  | .str _ => "str"
  | .arr _ => "list"
  | .obj _ => "dict"

def ofStrings (l : List String) : Json := .arr (l.map .str)

def ofString? : Option String → Json
  | some s => .str s
  | none => .null

/-- Data that counts as true: everything but null, false, zero and what is empty. -/
def truthy : Json → Bool
  | .null => false
  | .bool b => b
  | .int n => n != 0
  | .float x => !(x == 0.0)
  | .str s => !s.isEmpty
  | .arr l => !l.isEmpty
  | .obj l => !l.isEmpty

end Json

end CodeAtlas

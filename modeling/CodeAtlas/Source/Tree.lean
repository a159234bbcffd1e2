import CodeAtlas.Source.Token

/-!
# Trees of sources

The parse of a source as a tree. Only what definitions and calls need is told apart. A value holds
no definition. The nodes are listed level by level: first the root, then its children, then theirs.
-/

namespace CodeAtlas.Source

inductive ValueKind where
  | call
  | name (name : String)
  | part
  | starred
  | sequence
  | other
deriving Repr, DecidableEq

inductive Value where
  | node (kind : ValueKind) (children : List Value)
deriving Repr

namespace Value

instance : Inhabited Value := ⟨.node .other []⟩

def kind : Value → ValueKind
  | .node k _ => k

def children : Value → List Value
  | .node _ l => l

mutual

def height : Value → Nat
  | .node _ l => heights l + 1

def heights : List Value → Nat
  | [] => 0
  | v :: rest => max v.height (heights rest)

end

mutual

def isTarget : Value → Bool
  | .node (.name _) _ => true
  | .node .part _ => true
  | .node .starred l => areTargets l
  | .node .sequence l => areTargets l
  | _ => false

def areTargets : List Value → Bool
  | [] => true
  | v :: rest => v.isTarget && areTargets rest

end

end Value

inductive NodeKind where
  | function (isAsync : Bool) (name : String) (params : List String) (decorators : Nat)
  | classDef (name : String)
  | other
deriving Repr, DecidableEq

/-- The tree of a source. A definition has its first and last line. -/
inductive Tree where
  | value (v : Value)
  | node (kind : NodeKind) (first last : Nat) (children : List Tree)
deriving Repr

namespace Tree

def plain (children : List Tree) : Tree := .node .other 0 0 children

def values (vs : List Value) : Tree := plain (vs.map .value)

def kind : Tree → NodeKind
  | .value _ => .other
  | .node k _ _ _ => k

def children : Tree → List Tree
  | .value v => v.children.map .value
  | .node _ _ _ l => l

mutual

def height : Tree → Nat
  | .value v => v.height
  | .node _ _ _ l => heights l + 1

def heights : List Tree → Nat
  | [] => 0
  | t :: rest => max t.height (heights rest)

end

def levels : Nat → List Tree → List Tree
  | 0, _ => []
  | n + 1, row => row ++ levels n (row.flatMap children)

def nodes (t : Tree) : List Tree := levels t.height [t]

def called? : Tree → Option String
  | .value (.node .call (.node (.name s) _ :: _)) => some s
  | _ => none

def calledNames (t : Tree) : List String := t.nodes.filterMap called?

def decorate (decorators : List Value) : Tree → Tree
  | .node (.function isAsync name params _) first last l =>
    .node (.function isAsync name params decorators.length) first last
      (l.dropLast ++ decorators.map .value ++ l.drop (l.length - 1))
  | .node kind first last l => .node kind first last (l ++ decorators.map .value)
  | t => t

end Tree

end CodeAtlas.Source

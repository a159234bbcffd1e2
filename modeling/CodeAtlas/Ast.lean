import CodeAtlas.Text.Basic

/-!
# Trees of declarations and expressions

The tree that a compiler front end hands out for a source file. Each node knows its kind, its
place, its own tokens and what it refers to.
-/

namespace CodeAtlas

inductive NodeKind where
  | function
  | method
  | constructor
  | destructor
  | functionTemplate
  | classTemplate
  | classDecl
  | structDecl
  | baseSpecifier
  | typeParameter
  | valueParameter
  | templateParameter
  | call
  | memberRef
  | field
  | typeDef
  | typeRef
  | templateRef
  | other (name : String)
deriving Repr, DecidableEq, Inhabited

namespace NodeKind

def isClass (k : NodeKind) : Bool := k == .classDecl || k == .structDecl

def isTemplate (k : NodeKind) : Bool := k == .functionTemplate || k == .classTemplate

end NodeKind

structure Scope where
  kind : NodeKind
  name : String
deriving Repr, DecidableEq

structure Referent where
  kind : NodeKind
  name : String
  scope : Option Scope
deriving Repr, DecidableEq

structure NodeType where
  name : String
  isValid : Bool
deriving Repr, DecidableEq

/-- A node without its children. -/
structure NodeInfo where
  kind : NodeKind
  name : String := ""
  displayName : String := ""
  file : Option String := none
  line : Int := 0
  tokens : List String := []
  isDefinition : Bool := false
  isVirtual : Bool := false
  isPure : Bool := false
  isConst : Bool := false
  access : String := ""
  isStatic : Bool := false
  scope : Option Scope := none
  referent : Option Referent := none
  definition : Option String := none
  type : Option NodeType := none
  argTypes : List String := []
  resultType : String := ""
deriving Repr, Inhabited

namespace NodeInfo

def text (n : NodeInfo) : String := Text.join " " n.tokens

def isElsewhere (n : NodeInfo) (file : String) : Bool :=
  match n.file with
  | some f => f != file
  | none => false

def fileName (n : NodeInfo) : String := n.file.getD ""

end NodeInfo

inductive Ast where
  | node (info : NodeInfo) (children : List Ast)
deriving Inhabited, Repr

namespace Ast

def info : Ast → NodeInfo
  | .node info _ => info

def children : Ast → List Ast
  | .node _ children => children

def kind (a : Ast) : NodeKind := a.info.kind

end Ast

end CodeAtlas

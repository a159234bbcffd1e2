import CodeAtlas.Source.Statement
import CodeAtlas.Json.Access

/-!
# Blocks of sources

The definitions of functions and classes in a source with their lines. A block's code is cut out
of the source by its line numbers. Definitions come level by level, so outer ones before inner
ones.
-/

namespace CodeAtlas.Source

inductive BlockKind where
  | function
  | asyncFunction
  | classDef
deriving Repr, DecidableEq

def BlockKind.name : BlockKind → String
  | .function => "FunctionDef"
  | .asyncFunction => "AsyncFunctionDef"
  | .classDef => "ClassDef"

structure Block where
  kind : BlockKind
  name : String
  startLine : Nat
  endLine : Nat
  code : String
  file : String
deriving Repr, DecidableEq

def cutLines (source : String) (first last : Nat) : String :=
  Text.join "\n" (((Text.lines source).take last).drop (first - 1))

namespace Block

def isFunction (b : Block) : Bool := b.kind != .classDef

def ofTree? (file source : String) : Tree → Option Block
  | .node kind first last _ =>
    let block (kind : BlockKind) (name : String) : Block :=
      ⟨kind, name, first, last, cutLines source first last, file⟩
    match kind with
    | .function isAsync name _ _ =>
      some (block (if isAsync then .asyncFunction else .function) name)
    | .classDef name => some (block .classDef name)
    | .other => none
  | .value _ => none

def toJson (b : Block) : Json :=
  .obj [("type", .str b.kind.name), ("name", .str b.name), ("start_line", .int b.startLine),
    ("end_line", .int b.endLine), ("code", .str b.code), ("file", .str b.file)]

end Block

def blocks (file source : String) : Except Fault (List Block) := do
  let tree := Tree.plain (← parse 1 source)
  return tree.nodes.filterMap (Block.ofTree? file source)

/-- The first statement of a piece of code that stands at a line, if it parses alone. -/
def firstStatement? (line : Nat) (code : String) : Option Tree :=
  match parse line code with
  | .ok (t :: _) => some t
  | _ => none

namespace Block

def signature? (b : Block) : Option String :=
  match (firstStatement? b.startLine b.code).map Tree.kind with
  | some (.function _ name params _) => some (name ++ "(" ++ Text.join ", " params ++ ")")
  | _ => none

/-- The plain names that the code of a block calls, none if it does not parse alone. -/
def calledNames (b : Block) : List String :=
  ((firstStatement? b.startLine b.code).map Tree.calledNames).getD []

end Block

end CodeAtlas.Source

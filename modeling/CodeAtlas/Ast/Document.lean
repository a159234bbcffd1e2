import CodeAtlas.Ast
import CodeAtlas.Json.Access

/-!
# Trees as documents

A tree can be written as a document: a table of tokens and a root node with short keys. A node
without a file of its own stands in the file of the node above.
-/

namespace CodeAtlas

def NodeKind.ofName : String → NodeKind
  | "FUNCTION_DECL" => .function
  | "CXX_METHOD" => .method
  | "CONSTRUCTOR" => .constructor
  | "DESTRUCTOR" => .destructor
  | "FUNCTION_TEMPLATE" => .functionTemplate
  | "CLASS_TEMPLATE" => .classTemplate
  | "CLASS_DECL" => .classDecl
  | "STRUCT_DECL" => .structDecl
  | "CXX_BASE_SPECIFIER" => .baseSpecifier
  | "TEMPLATE_TYPE_PARAMETER" => .typeParameter
  | "TEMPLATE_NON_TYPE_PARAMETER" => .valueParameter
  | "TEMPLATE_TEMPLATE_PARAMETER" => .templateParameter
  | "CALL_EXPR" => .call
  | "MEMBER_REF_EXPR" => .memberRef
  | "FIELD_DECL" => .field
  | "TYPEDEF_DECL" => .typeDef
  | "TYPE_REF" => .typeRef
  | "TEMPLATE_REF" => .templateRef
  | k => .other k

def Scope.ofJson (j : Json) : Scope := ⟨.ofName (j.textAt "k" ""), j.textAt "s" ""⟩

def Json.objectAt? (j : Json) (key : String) : Option Json :=
  match j.get? key with
  | some (.obj l) => some (.obj l)
  | _ => none

/-- The tokens from one position up to another; negative positions count from the end. -/
def tokenRange (tokens : Array String) (a b : Int) : List String :=
  let n : Int := tokens.size
  let fix := fun (x : Int) => (if x < 0 then max 0 (x + n) else min x n).toNat
  (tokens.extract (fix a) (fix b)).toList

def NodeInfo.ofJson (tokens : Array String) (file : Option String) (j : Json) : NodeInfo :=
  { kind := .ofName (j.textAt "k" "")
    name := j.textAt "s" ""
    displayName := j.textAt "d" (j.textAt "s" "")
    file := file
    line := j.intAt "l" 0
    tokens := match j.itemsAt "t" with
      | [.int a, .int b] => tokenRange tokens a b
      | l => l.map Json.text
    isDefinition := j.boolAt "isdef" false
    isVirtual := j.boolAt "virt" false
    isPure := j.boolAt "pure" false
    isConst := j.boolAt "const" false
    access := "AccessSpecifier." ++ j.textAt "acc" "INVALID"
    isStatic := (j.field "sc").int? == some 2
    scope := (j.objectAt? "par").map Scope.ofJson
    referent := (j.objectAt? "ref").map fun r =>
      ⟨.ofName (r.textAt "k" ""), r.textAt "s" "", (r.objectAt? "par").map Scope.ofJson⟩
    definition := (j.objectAt? "def").map fun d => d.textAt "s" ""
    type := (j.objectAt? "ty").map fun t => ⟨t.textAt "s" "", t.textAt "k" "RECORD" != "INVALID"⟩
    argTypes := j.textsAt "args"
    resultType := j.textAt "ret" "" }

namespace Ast

/-- Reads a node with its children; `fuel` bounds the depth. -/
def ofNode (tokens : Array String) : Nat → Option String → Json → Ast
  | 0, file, j => .node (.ofJson tokens file j) []
  | fuel + 1, file, j =>
    let file := match j.get? "f" with
      | some (.str s) => some s
      | some _ => none
      | none => file
    .node (.ofJson tokens file j) ((j.itemsAt "c").map (ofNode tokens fuel file))

def ofJson (j : Json) : Ast :=
  ofNode (j.textsAt "tokens").toArray j.depth none (j.field "root")

end Ast

end CodeAtlas

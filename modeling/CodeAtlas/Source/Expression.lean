import CodeAtlas.Source.Parameters
import CodeAtlas.Source.Slot

/-!
# Expressions

Expressions by descent: each rule reads what binds tighter first. The number is a bound on the
depth; running out of it is a fault.
-/

namespace CodeAtlas.Source

open Parse

def operators : List (List String) :=
  [["|"], ["^"], ["&"], ["<<", ">>"], ["+", "-"], ["*", "/", "//", "%", "@"]]

def comparisons : List String := ["==", "!=", "<", ">", "<=", ">="]

def updates : List String :=
  ["+=", "-=", "*=", "/=", "//=", "%=", "@=", "&=", "|=", "^=", ">>=", "<<=", "**="]

def endsItems (t : Token) : Bool :=
  t.kind == .newline || isWord t "in"
    || (t.kind == .sign &&
      ([")", "]", "\x7d", "=", ":", ";"].contains t.text || updates.contains t.text))

def tupleOf : List Value × Bool → Value
  | ([t], false) => t
  | (ts, _) => .node .sequence ts

def constantWords : List String := ["None", "True", "False"]

def startsAtom (t : Token) : Bool :=
  match t.kind with
  | .name => constantWords.contains t.text || !keywords.contains t.text
  | .number | .text _ | .template _ => true
  | .sign => ["...", "(", "[", "\x7b"].contains t.text
  | _ => false

def comparison? : Parse Bool := do
  let t ← peek
  if t.kind == .sign && comparisons.contains t.text then
    let _ ← take
    return true
  if ← acceptWord "in" then return true
  if ← acceptWord "is" then
    let _ ← acceptWord "not"
    return true
  if ← acceptWord "not" then
    expectWord "in"
    return true
  return false

def seesNamedArg : Parse Bool := do
  match (← get).ahead with
  | a :: b :: _ => return a.kind == .name && isSign b "="
  | _ => return false

def seesFor : Parse Bool := do
  match (← get).ahead with
  | a :: b :: _ => return isWord a "for" || (isWord a "async" && isWord b "for")
  | _ => return false

mutual

def expression : Nat → Parse Value
  | 0 => fail
  | n + 1 => do
    if ← acceptWord "lambda" then
      let params ← parameters n false ":"
      expectSign ":"
      return .node .other [params.node, ← expression n]
    let body ← junction n "or"
    if ← acceptWord "if" then
      let test ← junction n "or"
      expectWord "else"
      return .node .other [test, body, ← expression n]
    return body

def namedExpression : Nat → Parse Value
  | 0 => fail
  | n + 1 => do
    let value ← expression n
    if ← seesSign ":=" then
      match value.kind with
      | .name _ =>
        let _ ← take
        return .node .other [value, ← expression n]
      | _ => fail
    return value

def item : Nat → Parse Value
  | 0 => fail
  | n + 1 => do
    if ← acceptSign "*" then return .node .starred [← binary n operators]
    namedExpression n

def row : Nat → Parse Value
  | 0 => fail
  | n + 1 => do
    let value : Parse Value := do
      if ← acceptSign "*" then return .node .starred [← binary n operators]
      expression n
    return tupleOf (← separated value "," endsItems)

def items : Nat → Parse Value
  | 0 => fail
  | n + 1 => do
    if ← acceptWord "yield" then
      if ← acceptWord "from" then return .node .other [← expression n]
      if endsItems (← peek) then return .node .other []
      return .node .other [← row n]
    row n

/-- Targets with commas between them, as one target; `stars` tells whether a star may stand in front
of one. -/
def targets : Nat → Bool → Parse Value
  | 0, _ => fail
  | n + 1, stars => do
    let target : Parse Value := do
      if stars then
        if ← acceptSign "*" then return .node .starred [← binary n operators]
      binary n operators
    let t := tupleOf (← separated target "," endsItems)
    if t.isTarget then return t
    fail

/-- Conditions with `or` or `and` between them. -/
def junction : Nat → String → Parse Value
  | 0, _ => fail
  | n + 1, word => do
    let part : Parse Value := if word == "or" then junction n "and" else negation n
    let head ← part
    let rest ← repeated do
      if ← acceptWord word then return some (← part)
      return none
    return if rest.isEmpty then head else .node .other (head :: rest)

def negation : Nat → Parse Value
  | 0 => fail
  | n + 1 => do
    if ← acceptWord "not" then return .node .other [← negation n]
    let left ← binary n operators
    let rest ← repeated do
      if ← comparison? then return some (← binary n operators)
      return none
    return if rest.isEmpty then left else .node .other (left :: rest)

def binary : Nat → List (List String) → Parse Value
  | 0, _ => fail
  | n + 1, [] => factor n
  | n + 1, signs :: tighter => do
    let left ← binary n tighter
    let rest ← repeated do
      let t ← peek
      if t.kind == .sign && signs.contains t.text then
        let _ ← take
        return some (← binary n tighter)
      return none
    return rest.foldl (fun l r => .node .other [l, r]) left

def factor : Nat → Parse Value
  | 0 => fail
  | n + 1 => do
    let t ← peek
    if t.kind == .sign && ["+", "-", "~"].contains t.text then
      let _ ← take
      return .node .other [← factor n]
    let awaited ← acceptWord "await"
    let value ← primary n
    let value := if awaited then .node .other [value] else value
    if ← acceptSign "**" then return .node .other [value, ← factor n]
    return value

def primary : Nat → Parse Value
  | 0 => fail
  | n + 1 => do
    let head ← atom n
    let steps ← repeated do
      if ← acceptSign "." then
        let _ ← expectName
        return some fun t => Value.node .part [t]
      if ← acceptSign "(" then
        let args ← arguments n true
        return some fun t => Value.node .call (t :: args)
      if ← acceptSign "[" then
        let index := tupleOf (← separated (slice n) "," (isSign · "]"))
        expectSign "]"
        return some fun t => Value.node .part [t, index]
      return none
    return steps.foldl (fun t step => step t) head

def slice : Nat → Parse Value
  | 0 => fail
  | n + 1 => do
    let bound (value : Parse Value) : Parse (List Value) := do
      let t ← peek
      if isSign t ":" || isSign t "]" || isSign t "," then return []
      return [← value]
    let low ← bound (item n)
    if low.all (·.kind != .starred) then
      if ← acceptSign ":" then
        let high ← bound (expression n)
        let step ← if ← acceptSign ":" then bound (expression n) else pure []
        return .node .other (low ++ high ++ step)
    match low with
    | [t] => return t
    | _ => fail

/-- The arguments of a call, to the closing bracket; `generators` tells whether a comprehension may
be one without brackets of its own. -/
def arguments : Nat → Bool → Parse (List Value)
  | 0, _ => fail
  | n + 1, generators => do
    if ← acceptSign ")" then return []
    let arg : Parse Arg := do
      if ← acceptSign "**" then return .rest (← expression n)
      if ← acceptSign "*" then return .spread (← expression n)
      if ← seesNamedArg then
        let _ ← expectName
        expectSign "="
        return .named (← expression n)
      let value ← namedExpression n
      if ← seesFor then return .generator (.node .other (value :: (← comprehension n)))
      return .plain value
    let (args, comma) ← separated arg "," (isSign · ")")
    expectSign ")"
    if Arg.ordered false false args && Arg.standAlone (comma || !generators) args then
      return Arg.nodes args
    fail

def comprehension : Nat → Parse (List Value)
  | 0 => fail
  | n + 1 => repeated do
    if ← seesFor then
      let _ ← acceptWord "async"
      expectWord "for"
      let target ← targets n true
      expectWord "in"
      let source ← junction n "or"
      let tests ← repeated do
        if ← acceptWord "if" then return some (← junction n "or")
        return none
      return some (.node .other (target :: source :: tests))
    return none

def atom : Nat → Parse Value
  | 0 => fail
  | n + 1 => do
    let t ← takeIf startsAtom
    match t.kind with
    | .name => return .node (if constantWords.contains t.text then .other else .name t.text) []
    | .sign =>
      if t.text == "(" then grouped n
      else if t.text == "[" then listed n
      else if t.text == "\x7b" then collected n
      else return .node .other []
    | .text _ | .template _ =>
      let rest ← repeated do
        let next ← peek
        if next.isText then return some (← take)
        return none
      if rest.any (·.isBytes != t.isBytes) then fail
      return .node .other (← (t :: rest).mapM (values n)).flatten
    | _ => return .node .other []

def values : Nat → Token → Parse (List Value)
  | 0, _ => fail
  | n + 1, t =>
    match t.kind with
    | .template isRaw =>
      match slots? isRaw t.text with
      | some slots => slots.mapM (slot n)
      | none => fail
    | _ => return []

def slot : Nat → Slot → Parse Value
  | 0, _ => fail
  | n + 1, .mk source format => do
    let outer ← get
    let (lines, flaw) := readLines 1 0 (Text.rows ("(" ++ source ++ ")"))
    set (Place.mk ((lines.head?.map Line.tokens).getD []) flaw)
    let value ← items n
    expectEnd
    set outer
    match format with
    | some slots => return .node .other [value, .node .other (← slots.mapM (slot n))]
    | none => return .node .other [value]

def grouped : Nat → Parse Value
  | 0 => fail
  | n + 1 => do
    if ← acceptSign ")" then return .node .sequence []
    if ← seesWord "yield" then
      let value ← items n
      expectSign ")"
      return value
    let (values, comma) ← separated (item n) "," endsItems
    match values, comma, ← seesFor with
    | [value], false, true =>
      if value.kind == .starred then fail
      let clauses ← comprehension n
      expectSign ")"
      return .node .other (value :: clauses)
    | [value], false, false =>
      expectSign ")"
      if value.kind == .starred then fail
      return value
    | _, _, _ =>
      expectSign ")"
      return .node .sequence values

def listed : Nat → Parse Value
  | 0 => fail
  | n + 1 => do
    if ← acceptSign "]" then return .node .sequence []
    let (values, comma) ← separated (item n) "," endsItems
    let clauses ← comprehension n
    expectSign "]"
    if clauses.isEmpty then return .node .sequence values
    if comma || values.any (·.kind == .starred) then fail
    return .node .other (values ++ clauses)

def collected : Nat → Parse Value
  | 0 => fail
  | n + 1 => do
    if ← acceptSign "\x7d" then return .node .other []
    let entry : Parse (List Value × List Value × Bool) := do
      if ← acceptSign "**" then return ([], [← binary n operators], true)
      let key ← item n
      if ← acceptSign ":" then
        if key.kind == .starred then fail
        return ([key], [← expression n], true)
      return ([key], [], false)
    let (entries, comma) ← separated entry "," (isSign · "\x7d")
    let clauses ← comprehension n
    expectSign "\x7d"
    let unpacked := entries.any fun (keys, _, _) => keys.isEmpty || keys.any (·.kind == .starred)
    if (comma || unpacked) && !clauses.isEmpty then fail
    let paired := entries.map (·.2.2)
    if paired.contains true && paired.contains false then fail
    return .node .other (entries.flatMap (·.1) ++ entries.flatMap (·.2.1) ++ clauses)

def parameters : Nat → Bool → String → Parse Params
  | 0, _, _ => fail
  | n + 1, annotated, stop => do
    if ← seesSign stop then return {}
    let param : Parse Param := do
      let name ← expectName
      if annotated then
        if ← acceptSign ":" then return { name, annotation := [← expression n] }
      return { name }
    let entry : Parse ParamItem := do
      if ← acceptSign "/" then return .slash
      if ← acceptSign "**" then return .rest (← param)
      if ← acceptSign "*" then
        if (← seesSign ",") || (← seesSign stop) then return .star
        return .spread (← param)
      let p ← param
      if ← acceptSign "=" then return .plain { p with default := [← expression n] }
      return .plain p
    let (entries, _) ← separated entry "," (isSign · stop)
    match Params.ofItems? entries with
    | some params => return params
    | none => fail

end

end CodeAtlas.Source

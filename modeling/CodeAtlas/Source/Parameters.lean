import CodeAtlas.Source.Parse

/-!
# Parameters and arguments

Lists of parameters and of arguments have rules on the order of their items. The items are read
first and put in order then.
-/

namespace CodeAtlas.Source

structure Param where
  name : String
  annotation : List Value := []
  default : List Value := []

def Param.node (p : Param) : Value := .node .other p.annotation

inductive ParamItem where
  /-- The mark behind parameters that are given by position only. -/
  | slash
  | star
  | spread (p : Param)
  | rest (p : Param)
  | plain (p : Param)

structure Params where
  early : List Param := []
  plain : List Param := []
  spread : Option Param := none
  named : List Param := []
  rest : Option Param := none

namespace Params

/-- Reads the items in order. `starred` is set behind a star, `bare` right behind one without a
name. -/
def read? (ps : Params) (starred bare : Bool) : List ParamItem → Option Params
  | [] => if bare then none else some ps
  | .slash :: items =>
    if starred || ps.plain.isEmpty || !ps.early.isEmpty then none
    else read? { ps with early := ps.plain, plain := [] } false false items
  | .star :: items => if starred then none else read? ps true true items
  | .spread p :: items =>
    if starred then none else read? { ps with spread := some p } true false items
  | .rest p :: items => if bare || !items.isEmpty then none else some { ps with rest := some p }
  | .plain p :: items =>
    if starred then read? { ps with named := ps.named ++ [p] } true false items
    else if p.default.isEmpty && (ps.early ++ ps.plain).any (!·.default.isEmpty) then none
    else read? { ps with plain := ps.plain ++ [p] } false false items

def ofItems? (items : List ParamItem) : Option Params := read? {} false false items

/-- The node of the parameters: first the parameters of each kind, with the defaults of the named
ones behind them, then the other defaults. -/
def node (ps : Params) : Value :=
  .node .other
    ((ps.early ++ ps.plain ++ ps.spread.toList ++ ps.named).map Param.node
      ++ ps.named.flatMap (·.default) ++ ps.rest.toList.map Param.node
      ++ (ps.early ++ ps.plain).flatMap (·.default))

end Params

inductive Arg where
  | plain (v : Value)
  | generator (v : Value)
  | spread (v : Value)
  | named (v : Value)
  | rest (v : Value)

namespace Arg

def ordered (named rest : Bool) : List Arg → Bool
  | [] => true
  | .plain _ :: args | .generator _ :: args => !named && !rest && ordered named rest args
  | .spread _ :: args => !rest && ordered named rest args
  | .named _ :: args => ordered true rest args
  | .rest _ :: args => ordered named true args

/-- The argument is a comprehension without brackets of its own. -/
def isGenerator : Arg → Bool
  | .generator _ => true
  | _ => false

/-- There are no comprehensions without brackets of their own where none may be. -/
def standAlone (forbidden : Bool) (args : List Arg) : Bool := !(forbidden && args.any isGenerator)

def position? : Arg → Option Value
  | .plain v | .generator v => some v
  | .spread v => some (.node .starred [v])
  | _ => none

def name? : Arg → Option Value
  | .named v | .rest v => some (.node .other [v])
  | _ => none

def nodes (args : List Arg) : List Value := args.filterMap position? ++ args.filterMap name?

end Arg

end CodeAtlas.Source

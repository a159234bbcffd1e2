import CodeAtlas.Ast
import CodeAtlas.Function.Basic
import CodeAtlas.Text.Numeral

/-!
# Partial specialization

A template is taken for a partial specialization if fewer arguments than parameters are given, or
if its node shows both a concrete type and a template parameter.
-/

namespace CodeAtlas.Extraction

open Text

def basicTypes : List String := ["int", "char", "bool", "float", "double", "void"]

structure SpecializationSigns where
  concrete : Bool := false
  parameter : Bool := false
  types : List String := []
deriving Repr, DecidableEq

def isConcreteType (params : List String) (token : String) : Bool :=
  !basicTypes.contains token && !params.contains token && !allDigits token &&
    occursIn "::" token

def bracketTokens : Bool → List String → List String
  | _, [] => []
  | inside, t :: rest =>
    let inside := inside || occursIn "<" t
    let after := inside && !occursIn ">" t
    if inside then t :: bracketTokens after rest else bracketTokens after rest

def mixesInBrackets (params types tokens : List String) : Bool :=
  if tokens.contains "<" && tokens.contains ">" then
    let text := join " " (bracketTokens false tokens)
    params.any (occursIn · text) &&
      ((["int", "bool", "char", "double", "std::"].any (occursIn · text)) ||
        types.any (occursIn · text))
  else false

def SpecializationSigns.add (params : List String) (s : SpecializationSigns) (c : Ast) :
    SpecializationSigns :=
  let tokens := c.info.tokens
  let types :=
    if c.kind == .typeRef || c.kind == .templateRef then tokens.filter (isConcreteType params)
    else []
  let s := { s with concrete := s.concrete || !types.isEmpty, types := s.types ++ types }
  let s := if c.kind == .typeParameter then { s with parameter := true } else s
  if mixesInBrackets params s.types tokens then { s with concrete := true, parameter := true }
  else s

/-- The tokens of the arguments of a specialization: from the first token with an opening bracket
up to the next one with a closing bracket. A token `template` right before a bracket is left out. -/
def specializationTokens : Bool → List String → List String
  | _, [] => []
  | inside, t :: rest =>
    if t == "template" && rest.head? == some "<" then specializationTokens false rest
    else if inside then
      if occursIn ">" t then [t] else t :: specializationTokens true rest
    else if occursIn "<" t then t :: specializationTokens true rest
    else specializationTokens false rest

def setPrimary (f : Function) : Function :=
  if occursIn "<" f.name then
    { f with primaryTemplate := (split f.name "<").headD "" }
  else f

def detectSpecialization (a : Ast) (f : Function) : Function :=
  if !f.isTemplate then f
  else
    let params := f.templateParams
    let args := f.specializationArgs
    let f :=
      if !params.isEmpty && !args.isEmpty && params.length > args.length then
        setPrimary { f with partialSpecialization := true }
      else f
    let signs := a.children.foldl (SpecializationSigns.add params) {}
    if signs.concrete && signs.parameter then
      let f := { f with partialSpecialization := true }
      let section' := specializationTokens false a.info.tokens
      if section'.isEmpty then f
      else setPrimary { f with specializationArgs := [join " " section'] }
    else f

end CodeAtlas.Extraction

import CodeAtlas.Finder.Bodies
import CodeAtlas.Pattern.Parse

/-!
# Definitions in source texts

Functions are found by the look of their heads, in any of three families of languages: with braces
and types, with indentation, and with a leading keyword.
-/

namespace CodeAtlas.Finder

structure Definition where
  name : String
  file : String
  line : Nat
  body : String
deriving Repr, DecidableEq

/-- The look of a head; `typed` heads remember the words in front of the name first. -/
structure HeadPattern where
  pattern : Pattern
  typed : Bool

def typedHead (last : String) : HeadPattern :=
  ⟨.ofString ("((?:[a-zA-Z0-9_*]+\\s+)+)([a-zA-Z0-9_]+)\\s*\\([^)]*\\)\\s*" ++
      "(?:const)?\\s*(?:noexcept)?\\s*" ++ last),
    true⟩

def indentedHead : HeadPattern :=
  ⟨.ofString "def\\s+([a-zA-Z0-9_]+)\\s*\\([^)]*\\)(?:\\s*->.*?)?\\s*:", false⟩

def keywordHead : HeadPattern :=
  ⟨.ofString ("(?:function|const|let|var)\\s+([a-zA-Z0-9_]+)\\s*" ++
      "(?:=\\s*(?:async\\s*)?\\([^)]*\\)|=>\\s*\x7b" ++
    "|\\([^)]*\\)\\s*\x7b)"), false⟩

def definitionHeads : List HeadPattern := [typedHead "\x7b", indentedHead, keywordHead]

def declarationHeads : List HeadPattern :=
  [typedHead "\x7b", typedHead ";", indentedHead, keywordHead]

/-- The name in a head. A head without words in front of the name must show by a keyword or a sign
which family it belongs to. -/
def headName (h : HeadPattern) (m : Match) : Except Fault String :=
  let text := m.whole
  if Text.occursIn "def " text || Text.occursIn "function " text || Text.occursIn "=" text then
    .ok (m.group 1)
  else if h.typed then .ok (m.group 2)
  else .error (.outOfRange "no such group")

def lineAt (content : String) (pos : Nat) : Nat := (content.toList.take pos).count '\n' + 1

def bodyAt (content : String) (lines : List String) (pos : Nat) : Except Fault String := do
  let block := blockBody content pos "\x7b" "\x7d"
  if block.isEmpty then indentedBody lines (lineAt content pos) else return block

def definitionsIn (content file : String) : Except Fault (List Definition) := do
  let lines := Text.split content "\n"
  let found ← definitionHeads.mapM fun h =>
    (h.pattern.findAll content).mapM fun m => do
      let name ← headName h m
      let body ← bodyAt content lines m.start
      return (⟨name, file, lineAt content m.start, body⟩ : Definition)
  return found.flatten.filter (!·.body.isEmpty)

structure Source where
  path : String
  content : String
  definitions : List Definition
deriving Repr

abbrev CodeBase := List Source

end CodeAtlas.Finder

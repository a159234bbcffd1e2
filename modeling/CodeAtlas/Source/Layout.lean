import CodeAtlas.Source.Token

/-!
# Layout of sources

The lines of a source in blocks: a block is a run of lines indented deeper than the line above it.
-/

namespace CodeAtlas.Source

inductive Layout where
  | line (l : Line)
  | block (items : List Layout)

/-- The indents of the open blocks, the innermost first, behind a line; none if its indent fits
no block. -/
def blocksAt? (opened : List Nat) (indent : Nat) : Option (List Nat) :=
  let left := opened.dropWhile (indent < ·)
  if left.headD 0 < indent then
    if left == opened then some (indent :: left) else none
  else some left

/-- The lines up to the first one whose indent fits no open block, where a flaw takes its place and,
where the source is flawed, that of a line without tokens. Also says whether all indents fit. -/
def fitIndents (isFlawed : Bool) (opened : List Nat) : List Line → List Line × Bool
  | [] => ([], true)
  | l :: rest =>
    let flawed : Line := { l with indent := opened.headD 0, tokens := [⟨.flaw, ""⟩] }
    if isFlawed && l.tokens.isEmpty then ([flawed], true)
    else
      match blocksAt? opened l.indent with
      | none => ([flawed], false)
      | some opened =>
        let (lines, fits) := fitIndents isFlawed opened rest
        (l :: lines, fits)

def blockOf (items : List Layout) : List Layout := if items.isEmpty then [] else [.block items]

def layoutOf : List Line → List Layout
  | [] => []
  | l :: rest =>
    .line l :: (blockOf (layoutOf (rest.takeWhile (l.indent < ·.indent))) ++
      layoutOf (rest.dropWhile (l.indent < ·.indent)))
termination_by lines => lines.length
decreasing_by
  · exact Nat.lt_succ_of_le (List.takeWhile_sublist _).length_le
  · exact Nat.lt_succ_of_le (List.dropWhile_sublist _).length_le

/-- The layout of rows that are numbered from `n` on, and the flaw in which it ends. -/
def layout (n : Nat) (rows : List (List Char)) : List Layout × Option Flaw :=
  let (lines, flaw) := readLines n 0 rows
  let (lines, fits) := fitIndents flaw.isSome [] lines
  (blockOf (layoutOf (lines.takeWhile (0 < ·.indent))) ++ layoutOf (lines.dropWhile (0 < ·.indent)),
    if fits then flaw else some .unindent)

end CodeAtlas.Source

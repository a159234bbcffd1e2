import CodeAtlas.Text.Alphanumeric
import CodeAtlas.Text.Lowercase
import CodeAtlas.Text.Numeral

/-!
# Patterns and their matches

A pattern describes how a stretch of text may look. Alternatives are ordered: the earlier one is
preferred, a greedy repetition prefers more rounds and a lazy one fewer. `Pattern.run` follows
these preferences with a continuation, so the first way that lets the rest succeed is the match.
-/

namespace CodeAtlas

open Text

inductive CharItem where
  | range (lo hi : Char)
  | digit (negated : Bool)
  | word (negated : Bool)
  | blank (negated : Bool)
  /-- The characters of ranges, or all others. -/
  | among (ranges : List (Char × Char)) (negated : Bool)
deriving Repr, DecidableEq

def CharItem.holds (c : Char) : CharItem → Bool
  | .range lo hi => lo ≤ c && c ≤ hi
  | .digit negated => isDecimal c != negated
  | .word negated => isWordChar c != negated
  | .blank negated => isBlank c != negated
  | .among ranges negated => ranges.any (fun (lo, hi) => lo ≤ c && c ≤ hi) != negated

/-- A set of characters, given by entries or by what it leaves out. -/
structure CharSet where
  items : List CharItem
  negated : Bool := false
  anyCase : Bool := false
deriving Repr, DecidableEq

def CharSet.holds (s : CharSet) (c : Char) : Bool :=
  let described := fun c => s.items.any (·.holds c)
  (described c || (s.anyCase && (described (lowerChar c) || described c.toUpper))) != s.negated

def CharSet.single (c : Char) : CharSet := { items := [.range c c] }

def CharSet.bothCases (c : Char) : CharSet :=
  { items := [.range (lowerChar c) (lowerChar c)], anyCase := true }

inductive Anchor where
  | textStart
  | lineStart
  /-- The position is the end of the text, or the last line feed ends the text there. -/
  | textEnd
  | lineEnd
  | veryEnd
  | wordEdge
  | notWordEdge
deriving Repr, DecidableEq

def wordAt (text : Array Char) (pos : Nat) : Bool :=
  match text[pos]? with
  | some c => isWordChar c
  | none => false

def Anchor.holds (text : Array Char) (pos : Nat) : Anchor → Bool
  | .textStart => pos == 0
  | .lineStart => pos == 0 || text[pos - 1]? == some '\n'
  | .textEnd => pos == text.size || (pos + 1 == text.size && text[pos]? == some '\n')
  | .lineEnd => pos == text.size || text[pos]? == some '\n'
  | .veryEnd => pos == text.size
  | .wordEdge => (0 < pos && wordAt text (pos - 1)) != wordAt text pos
  | .notWordEdge => !text.isEmpty && (0 < pos && wordAt text (pos - 1)) == wordAt text pos

inductive Pattern where
  | empty
  | char (set : CharSet)
  | anchor (a : Anchor)
  | seq (p q : Pattern)
  | alt (p q : Pattern)
  /-- Between `least` and `most` rounds of a pattern. -/
  | rounds (p : Pattern) (least : Nat) (most : Option Nat) (greedy : Bool)
  | group (index : Nat) (p : Pattern)
  | again (index : Nat)
  /-- The first pattern if the group took part so far, and the second one otherwise. -/
  | given (index : Nat) (p q : Pattern)
  | ahead (p : Pattern) (negated : Bool)
  /-- The `width` characters before match the pattern, or do not. -/
  | behind (p : Pattern) (width : Nat) (negated : Bool)
  | committed (p : Pattern)
deriving Repr, DecidableEq

structure Capture where
  index : Nat
  start : Nat
  stop : Nat
deriving Repr, DecidableEq

structure Progress where
  pos : Nat
  /-- The stretches remembered, the latest first. -/
  captures : List Capture
deriving Repr, DecidableEq

/-- How many characters from a position on belong to the set, at most `limit`. -/
def charRun (text : Array Char) (set : CharSet) : Nat → Nat → Nat
  | 0, _ => 0
  | limit + 1, pos =>
    match text[pos]? with
    | some c => if set.holds c then charRun text set limit (pos + 1) + 1 else 0
    | none => 0

/-- The first success among the numbers `least + n`, …, `least + 1`, `least`. -/
def tryDown {α : Type} (least : Nat) (f : Nat → Option α) : Nat → Option α
  | 0 => f least
  | n + 1 =>
    match f (least + (n + 1)) with
    | some a => some a
    | none => tryDown least f n

/-- The first success among the `n + 1` numbers from `least` on. -/
def tryUp {α : Type} (f : Nat → Option α) (least : Nat) : Nat → Option α
  | 0 => f least
  | n + 1 =>
    match f least with
    | some a => some a
    | none => tryUp f (least + 1) n

/-- The characters from position `i` on agree with the `n` characters from position `j` on. -/
def sameStretch (text : Array Char) (i j : Nat) : Nat → Bool
  | 0 => true
  | n + 1 => i < text.size && text[i]? == text[j]? && sameStretch text (i + 1) (j + 1) n

/-- Rounds of a step. At least `least` more rounds are due and at most `most` more are allowed; a
round that would start where the last one started is not tried once none is due. -/
def runRounds (step : (Progress → Option Progress) → Progress → Option Progress) (greedy : Bool)
    (rest : Progress → Option Progress) :
    Nat → Nat → Option Nat → Option Nat → Progress → Option Progress
  | 0, _, _, _, _ => none
  | fuel + 1, least + 1, most, _, st =>
    step (fun st' => runRounds step greedy rest fuel least (most.map (· - 1)) (some st.pos) st') st
  | fuel + 1, 0, most, last, st =>
    let more := fun (_ : Unit) =>
      if most == some 0 || last == some st.pos then none
      else
        step (fun st' => runRounds step greedy rest fuel 0 (most.map (· - 1)) (some st.pos) st') st
    if greedy then
      match more () with
      | some r => some r
      | none => rest st
    else
      match rest st with
      | some r => some r
      | none => more ()

namespace Pattern

/-- Follows the pattern from a point of progress and hands each way through, in order of
preference, to `rest`, until one succeeds. -/
def run (text : Array Char) :
    Pattern → (Progress → Option Progress) → Progress → Option Progress
  | .empty, rest, st => rest st
  | .char set, rest, st =>
    match text[st.pos]? with
    | some c => if set.holds c then rest { st with pos := st.pos + 1 } else none
    | none => none
  | .anchor a, rest, st => if a.holds text st.pos then rest st else none
  | .seq p q, rest, st => p.run text (q.run text rest) st
  | .alt p q, rest, st =>
    match p.run text rest st with
    | some r => some r
    | none => q.run text rest st
  | .rounds (.char set) least most greedy, rest, st =>
    let left := text.size - st.pos
    let n := charRun text set (most.getD left) st.pos
    if n < least then none
    else
      let from' := fun k => rest { st with pos := st.pos + k }
      if greedy then tryDown least from' (n - least) else tryUp from' least (n - least)
  | .rounds p least most greedy, rest, st =>
    runRounds (p.run text) greedy rest (text.size - st.pos + least + 2) least most none st
  | .group index p, rest, st =>
    p.run text (fun st' =>
      rest { st' with captures := ⟨index, st.pos, st'.pos⟩ :: st'.captures }) st
  | .again index, rest, st =>
    match st.captures.find? (·.index == index) with
    | some c =>
      let n := c.stop - c.start
      if sameStretch text st.pos c.start n then rest { st with pos := st.pos + n } else none
    | none => none
  | .given index p q, rest, st =>
    if st.captures.any (·.index == index) then p.run text rest st else q.run text rest st
  | .ahead p negated, rest, st =>
    match p.run text some st with
    | some st' => if negated then none else rest { st with captures := st'.captures }
    | none => if negated then rest st else none
  | .behind p width negated, rest, st =>
    let found :=
      if st.pos < width then none
      else p.run text (fun st' => if st'.pos == st.pos then some st' else none)
        { st with pos := st.pos - width }
    match found with
    | some st' => if negated then none else rest { st with captures := st'.captures }
    | none => if negated then rest st else none
  | .committed p, rest, st =>
    match p.run text some st with
    | some st' => rest st'
    | none => none

def groupCount : Pattern → Nat
  | .empty | .char _ | .anchor _ | .again _ => 0
  | .seq p q | .alt p q | .given _ p q => p.groupCount + q.groupCount
  | .rounds p _ _ _ | .ahead p _ | .behind p _ _ | .committed p => p.groupCount
  | .group _ p => p.groupCount + 1

/-- The one length of all stretches that match, if there is just one. -/
def width? : Pattern → Option Nat
  | .empty | .anchor _ | .ahead _ _ | .behind _ _ _ => some 0
  | .char _ => some 1
  | .seq p q => do return (← p.width?) + (← q.width?)
  | .alt p q | .given _ p q => do
    let m ← p.width?
    let n ← q.width?
    if m == n then some m else none
  | .rounds p least most _ => do
    let n ← p.width?
    if n == 0 then some 0 else if most == some least then some (n * least) else none
  | .group _ p | .committed p => p.width?
  | .again _ => none

end Pattern

end CodeAtlas

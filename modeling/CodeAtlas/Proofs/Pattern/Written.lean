import CodeAtlas.Pattern.Parse
import CodeAtlas.Proofs.Pattern
import Mathlib.Tactic.FinCases

/-!
# Written patterns

How a pattern is read back that was put together from pieces. A piece is read
by itself, whatever stands behind it, unless that repeats it (`Piece`). So the
pieces of a text, one for each of its characters, are read one after the other
(`read_pieces`), and the pattern is followed in the same way (`run_pieces`).
-/

namespace CodeAtlas.Pattern

open List

variable {c : Char} {before : Pattern} {cs : List Char} {r : Reading} (text : Array Char)
  (word : List Char)

theorem run_bind_of_read {α β : Type} {x : ReadM α} {next : α → ReadM β} {s : Reading} {a : α}
    (h : x.run r = .ok (a, s)) : (x >>= next).run r = (next a).run s := by
  rw [StateT.run_bind, h]
  rfl

theorem accept_none {s : String} (h : Text.dropStart? s.toList r.rest = none) :
    (accept s).run r = .ok (false, r) := by
  rw [accept, run_bind_of_read rfl, h]
  rfl

theorem skipBlanks_run (r : Reading) : (skipBlanks {}).run r = .ok ((), r) := rfl

/-- The characters that do not stand for themselves outside of a set. -/
def metaChars : List Char := ['\\', '.', '^', '$', '[', '(', '*', '+', '?', '\x7b', '|', ')']

/-- What stands here neither repeats what is in front of it nor is a remark. -/
structure NoRepetition (cs : List Char) : Prop where
  head : ∀ c, cs.head? = some c → c ∉ ['*', '+', '?', '\x7b']
  remark : Text.dropStart? "(?#".toList cs = none

theorem noRepetition_cons (h : c ∉ ['*', '+', '?', '\x7b', '(']) (cs : List Char) :
    NoRepetition (c :: cs) where
  head d hd := by
    obtain rfl := Option.some.inj hd
    exact fun hc => h (mem_append_left ['('] hc)
  remark := by
    change (if '(' == c then _ else none) = none
    exact if_neg fun hc => h (by simp [← beq_iff_eq.1 hc])

def behindAll (before p : Pattern) : Pattern := if before == .empty then p else .seq before p

theorem run_behindAll (before p : Pattern) (rest : Progress → Option Progress) (st : Progress) :
    (behindAll before p).run text rest st = before.run text (p.run text rest) st := by
  unfold behindAll
  split_ifs with h
  · rw [beq_iff_eq.1 h, run]
  · rfl

/-! ### One item -/

section

variable {n : Nat} {rest : List Char} {groups : Nat} {closed : List Nat}
  {names : List (String × Nat)}

theorem item_plain (h : c ∉ metaChars) :
    (item {} (n + 1)).run ⟨c :: rest, groups, closed, names⟩ =
      .ok (.plain (.char (.single c)), ⟨rest, groups, closed, names⟩) := by
  simp only [metaChars, mem_cons, not_mem_nil, or_false, not_or] at h
  rw [item, run_bind_of_read (a := some c) rfl]
  simp [h]
  rfl

theorem specialChars_eq : specialChars = ['(', ')', '[', ']', '\x7b', '\x7d', '?', '*', '+', '-',
    '|', '^', '$', '\\', '.', '&', '~', '#', ' ', '\t', '\n', '\r', '\x0b', '\x0c'] := by
  decide +kernel

theorem item_escaped (h : c ∈ specialChars) :
    (item {} (n + 1)).run ⟨'\\' :: c :: rest, groups, closed, names⟩ =
      .ok (.plain (.char (.single c)), ⟨rest, groups, closed, names⟩) := by
  rw [specialChars_eq] at h
  fin_cases h <;> rfl

theorem skipRemark_of_noRepetition (h : NoRepetition rest) :
    skipRemark.run ⟨rest, groups, closed, names⟩ = .ok ((), ⟨rest, groups, closed, names⟩) := by
  rw [skipRemark, run_bind_of_read (accept_none h.remark)]
  rfl

theorem repetition?_of_noRepetition (h : NoRepetition rest) :
    repetition?.run ⟨rest, groups, closed, names⟩ = .ok (none, ⟨rest, groups, closed, names⟩) := by
  rw [repetition?, run_bind_of_read (a := rest.head?) rfl]
  cases rest with
  | nil => rfl
  | cons c rest =>
    have hc := h.head c rfl
    simp only [mem_cons, not_mem_nil, or_false, not_or] at hc
    simp [hc]
    rfl

theorem withRepetitions_none (h : NoRepetition rest) (i : Item) :
    (withRepetitions (n + 1) i).run ⟨rest, groups, closed, names⟩ =
      .ok (i, ⟨rest, groups, closed, names⟩) := by
  rw [withRepetitions, run_bind_of_read (skipRemark_of_noRepetition h),
    run_bind_of_read (repetition?_of_noRepetition h)]
  rfl

theorem withRepetitions_star (h : NoRepetition rest) (p : Pattern) :
    (withRepetitions (n + 2) (.plain p)).run ⟨'*' :: rest, groups, closed, names⟩ =
      .ok (.repeated (.rounds p 0 none true), ⟨rest, groups, closed, names⟩) := by
  have hskip : skipRemark.run ⟨'*' :: rest, groups, closed, names⟩ =
      .ok ((), ⟨'*' :: rest, groups, closed, names⟩) := rfl
  have hstar : repetition?.run ⟨'*' :: rest, groups, closed, names⟩ =
      .ok (some (0, none), ⟨rest, groups, closed, names⟩) := rfl
  rw [withRepetitions, run_bind_of_read hskip, run_bind_of_read hstar]
  dsimp only
  rw [run_bind_of_read (a := rest.head?) (s := ⟨rest, groups, closed, names⟩) rfl]
  cases rest with
  | nil => exact withRepetitions_none h _
  | cons c rest =>
    have hc := h.head c rfl
    simp only [mem_cons, not_mem_nil, or_false, not_or] at hc
    simp [hc]
    exact withRepetitions_none h _

theorem sequence_step {i j : Item} {s : Reading} (hc : c ∉ ['|', ')'])
    (hitem : (item {} (n + 1)).run ⟨c :: rest, groups, closed, names⟩ = .ok (i, r))
    (hi : (withRepetitions (n + 2) i).run r = .ok (j, s)) :
    (sequence {} (n + 2) before).run ⟨c :: rest, groups, closed, names⟩ =
      (sequence {} (n + 1) (behindAll before j.pattern)).run s := by
  simp only [mem_cons, not_mem_nil, or_false, not_or] at hc
  rw [sequence, run_bind_of_read (skipBlanks_run _), run_bind_of_read (a := some c) rfl]
  split
  · next h => cases h
  · next h => exact absurd (Option.some.inj h) hc.1
  · next h => exact absurd (Option.some.inj h) hc.2
  · rw [run_bind_of_read hitem, run_bind_of_read (skipBlanks_run _), run_bind_of_read hi]
    rfl

/-! ### Pieces -/

/-- A stretch of a written pattern that is read by itself, if nothing repeats it. -/
structure Piece (written : List Char) (p : Pattern) : Prop where
  read : ∀ {n : Nat} {before : Pattern} {rest : List Char} {groups : Nat} {closed : List Nat}
    {names : List (String × Nat)}, NoRepetition rest →
    (sequence {} (n + 2) before).run ⟨written ++ rest, groups, closed, names⟩ =
      (sequence {} (n + 1) (behindAll before p)).run ⟨rest, groups, closed, names⟩
  noRepetition : ∀ rest, NoRepetition (written ++ rest)

/-- A character as it is written: by itself, or behind a backslash. -/
inductive WrittenChar (c : Char) : List Char → Prop where
  | plain (h : c ∉ metaChars) : WrittenChar c [c]
  | escaped (h : c ∈ specialChars) : WrittenChar c ['\\', c]

namespace WrittenChar

variable {written : List Char} (h : WrittenChar c written)
include h

theorem noRepetition (rest : List Char) : NoRepetition (written ++ rest) := by
  cases h with
  | plain h =>
    refine noRepetition_cons (fun hc => h ?_) rest
    fin_cases hc <;> decide
  | escaped h => exact noRepetition_cons (by decide) _

theorem sequence_eq {i : Item}
    (hi : (withRepetitions (n + 2) (.plain (.char (.single c)))).run
      ⟨rest, groups, closed, names⟩ = .ok (i, r)) :
    (sequence {} (n + 2) before).run ⟨written ++ rest, groups, closed, names⟩ =
      (sequence {} (n + 1) (behindAll before i.pattern)).run r := by
  cases h with
  | plain h =>
    refine sequence_step (fun hc => h ?_) (item_plain h) hi
    fin_cases hc <;> decide
  | escaped h => exact sequence_step (by decide) (item_escaped h) hi

theorem piece : Piece written (.char (.single c)) where
  read hrest := h.sequence_eq (withRepetitions_none hrest _)
  noRepetition := h.noRepetition

theorem star_piece : Piece (written ++ ['*']) (.rounds (.char (.single c)) 0 none true) where
  read hrest := by
    rw [append_assoc]
    exact h.sequence_eq (withRepetitions_star hrest _)
  noRepetition rest := by
    rw [append_assoc]
    exact h.noRepetition _

end WrittenChar

section

variable {written : Char → List Char} {piece : Char → Pattern} {l : List Char}

theorem length_le_flatMap (h : ∀ c, written c ≠ []) (l : List Char) :
    l.length ≤ (l.flatMap written).length := by
  induction l with
  | nil => exact Nat.le_refl 0
  | cons c l ih =>
    have hc : 0 < (written c).length := length_pos_iff.2 (h c)
    rw [flatMap_cons, length_append, length_cons]
    omega

theorem noRepetition_pieces (h : ∀ c ∈ l, Piece (written c) (piece c))
    (hrest : NoRepetition rest) : NoRepetition (l.flatMap written ++ rest) := by
  cases l with
  | nil => exact hrest
  | cons c l =>
    rw [flatMap_cons, append_assoc]
    exact (h c mem_cons_self).noRepetition _

theorem read_pieces (h : ∀ c ∈ l, Piece (written c) (piece c)) (hrest : NoRepetition rest) :
    (sequence {} (l.length + (n + 1)) before).run
        ⟨l.flatMap written ++ rest, groups, closed, names⟩ =
      (sequence {} (n + 1) (l.foldl (fun p c => behindAll p (piece c)) before)).run
        ⟨rest, groups, closed, names⟩ := by
  induction l generalizing before with
  | nil => rw [length_nil, Nat.zero_add, flatMap_nil, nil_append, foldl_nil]
  | cons c l ih =>
    have hl : ∀ d ∈ l, Piece (written d) (piece d) := fun d hd => h d (mem_cons_of_mem c hd)
    rw [flatMap_cons, append_assoc, length_cons, Nat.add_right_comm, ← Nat.add_assoc,
      (h c mem_cons_self).read (noRepetition_pieces hl hrest), Nat.add_assoc, ih hl, foldl_cons]

theorem run_pieces (piece : Char → Pattern) (l : List Char) (before : Pattern)
    (rest : Progress → Option Progress) (st : Progress) :
    (l.foldl (fun p c => behindAll p (piece c)) before).run text rest st =
      before.run text (l.foldr (fun c next => (piece c).run text next) rest) st := by
  induction l generalizing before with
  | nil => rfl
  | cons c l ih =>
    rw [foldl_cons, ih, foldr_cons]
    exact run_behindAll text before (piece c) _ st

end

/-! ### Groups and whole patterns -/

theorem dropStart?_question (h : cs.head? ≠ some '?') (more : List Char) :
    Text.dropStart? ('?' :: more) cs = none := by
  cases cs with
  | nil => rfl
  | cons c cs =>
    change (if '?' == c then _ else none) = none
    exact if_neg fun hc => h (by simp [← beq_iff_eq.1 hc])

theorem noRepetition_paren (h : cs.head? ≠ some '?') : NoRepetition ('(' :: cs) where
  head c hc := by
    obtain rfl := Option.some.inj hc
    decide
  remark := dropStart?_question h ['#']

theorem item_group {p : Pattern} {more : List Char} {groups' : Nat} {closed' : List Nat}
    {names' : List (String × Nat)} (hmore : more.head? ≠ some '?')
    (h : (alternatives {} n).run ⟨more, groups + 1, closed, names⟩ =
      .ok (p, ⟨')' :: rest, groups', closed', names'⟩)) :
    (item {} (n + 2)).run ⟨'(' :: more, groups, closed, names⟩ =
      .ok (.plain (.group (groups + 1) p), ⟨rest, groups', (groups + 1) :: closed', names'⟩) := by
  have hnone : Text.dropStart? "?".toList more = none := dropStart?_question hmore []
  rw [item, run_bind_of_read (a := some '(') rfl]
  change (parenthesis {} (n + 1)).run ⟨more, groups, closed, names⟩ = _
  rw [parenthesis, run_bind_of_read (accept_none hnone), if_pos Bool.not_false,
    run_bind_of_read rfl, run_bind_of_read (s := ⟨more, groups + 1, closed, names⟩) rfl,
    run_bind_of_read h]
  rfl

theorem parse_of_sequence {s : String} (hs : s.toList = cs)
    (hflags : Text.dropStart? "(?".toList cs = none) {p : Pattern}
    (h : (sequence {} (4 * cs.length + 3) .empty).run ⟨cs, 0, [], []⟩ =
      .ok (p, ⟨[], groups, closed, names⟩)) :
    parse s = .ok p := by
  have halternatives : (alternatives {} (4 * cs.length + 4)).run ⟨cs, 0, [], []⟩ =
      .ok (p, ⟨[], groups, closed, names⟩) := by
    rw [alternatives, run_bind_of_read h]
    rfl
  have hleading : (leadingFlags (4 * cs.length + 4) {}).run ⟨cs, 0, [], []⟩ =
      .ok ({}, ⟨cs, 0, [], []⟩) := by
    rw [leadingFlags, run_bind_of_read (skipBlanks_run _), run_bind_of_read rfl,
      run_bind_of_read (accept_none hflags)]
    rfl
  rw [parse, parseWith, hs, whole, run_bind_of_read hleading, run_bind_of_read halternatives]
  rfl

end

/-! ### Words -/

def escapedChars (word : List Char) : List Char :=
  word.flatMap fun c => if specialChars.contains c then ['\\', c] else [c]

def wordPattern (word : List Char) : Pattern :=
  word.foldl (fun p c => behindAll p (.char (.single c))) .empty

theorem length_le_escapedChars : word.length ≤ (escapedChars word).length := by
  apply length_le_flatMap
  intro c
  split <;> exact cons_ne_nil _ _

theorem piece_escape (c : Char) :
    Piece (if specialChars.contains c then ['\\', c] else [c]) (.char (.single c)) := by
  split_ifs with h
  · exact (WrittenChar.escaped (by simpa using h)).piece
  · refine (WrittenChar.plain fun hc => h ?_).piece
    rw [contains_iff_mem, specialChars_eq]
    fin_cases hc <;> decide

theorem head?_escapedChars_ne (rest : List Char) :
    (escapedChars word ++ ')' :: rest).head? ≠ some '?' := by
  intro hhead
  have hend : NoRepetition (')' :: rest) := noRepetition_cons (by decide) rest
  exact (noRepetition_pieces (fun c _ => piece_escape c) hend).head _ hhead (by decide)

theorem item_word (rest : List Char) {n groups : Nat} {closed : List Nat}
    {names : List (String × Nat)} :
    (item {} (word.length + (n + 4))).run
        ⟨'(' :: (escapedChars word ++ ')' :: rest), groups, closed, names⟩ =
      .ok (.plain (.group (groups + 1) (wordPattern word)),
        ⟨rest, groups + 1, (groups + 1) :: closed, names⟩) := by
  have hend : NoRepetition (')' :: rest) := noRepetition_cons (by decide) rest
  have hread : (sequence {} (word.length + (n + 1)) .empty).run
      ⟨escapedChars word ++ ')' :: rest, groups + 1, closed, names⟩ =
        .ok (wordPattern word, ⟨')' :: rest, groups + 1, closed, names⟩) := by
    rw [escapedChars, read_pieces (fun c _ => piece_escape c) hend, sequence]
    rfl
  refine item_group (n := word.length + (n + 2)) (head?_escapedChars_ne word rest) ?_
  change (alternatives {} (word.length + (n + 1) + 1)).run _ = _
  rw [alternatives, run_bind_of_read hread]
  rfl

end CodeAtlas.Pattern

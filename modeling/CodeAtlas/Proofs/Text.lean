import CodeAtlas.Text.Alphanumeric
import CodeAtlas.Text.Numeral
import Mathlib.Data.List.Basic
import Mathlib.Data.List.TakeWhile

/-!
# Laws of texts

Lines that are joined by line feeds are read back as they were (`lines_join`), a
number is read back from its decimal digits (`digitsValue_toDigits`), and a text
without white space has nothing to trim (`trimList_eq_self`). A text occurs in
another one if it is an infix of it (`occursIn_iff`). Joining undoes splitting
(`join_split_of_ne`), and splitting at a single character undoes joining
(`split_join`). A longer separator may be found where it was not written; for a
doubled character `splitList_append_double` says when it is not.
-/

namespace CodeAtlas.Text

open List

variable {sep cs first piece : List Char} {p : Char → Bool} {c : Char} {s : String}

theorem inRanges_nil (n : Nat) : inRanges [] n = false := rfl

theorem inRanges_cons_iff (lo hi : Nat) (rest : List (Nat × Nat)) (n : Nat) :
    inRanges ((lo, hi) :: rest) n = true ↔ lo ≤ n ∧ (n ≤ hi ∨ inRanges rest n = true) := by
  by_cases h : n < lo
  · simp [inRanges, h, Nat.not_le.2 h]
  · simp [inRanges, h, Nat.not_lt.1 h]

theorem exists_range_of_inRanges {ranges : List (Nat × Nat)} {n : Nat}
    (h : inRanges ranges n = true) : ∃ r ∈ ranges, r.1 ≤ n ∧ n ≤ r.2 := by
  induction ranges with
  | nil => exact absurd h (by simp [inRanges])
  | cons r rest ih =>
    obtain ⟨hlow, hhigh | hrest⟩ := (inRanges_cons_iff _ _ _ _).1 h
    · exact ⟨r, mem_cons_self, hlow, hhigh⟩
    · obtain ⟨r', hr', hn⟩ := ih hrest
      exact ⟨r', mem_cons_of_mem _ hr', hn⟩

theorem isBlank_of_isWordChar (h : isWordChar c = true) : isBlank c = false := by
  have hapart : (blankRanges.flatMap fun r => range' r.1 (r.2 + 1 - r.1)).all
      (fun n => n != '_'.toNat && !inRanges alphanumericRanges n) = true := by
    decide +kernel
  rw [Bool.eq_false_iff]
  intro hblank
  obtain ⟨r, hr, hlow, hhigh⟩ := exists_range_of_inRanges hblank
  have hmem : c.toNat ∈ blankRanges.flatMap fun r => range' r.1 (r.2 + 1 - r.1) :=
    mem_flatMap.2 ⟨r, hr, mem_range'_1.2 (by omega)⟩
  have hc := all_eq_true.1 hapart _ hmem
  simp only [Bool.and_eq_true, bne_iff_ne, Bool.not_eq_true'] at hc
  simp only [isWordChar, isAlphanumeric, hc.2, Bool.or_false, beq_iff_eq] at h
  exact hc.1 (congrArg Char.toNat h)

theorem ne_return_of_isLineEnd (h : isLineEnd c = false) : c ≠ '\r' := by
  rintro rfl
  exact absurd h (by decide)

theorem not_isLineEnd_of_not_isBlank (h : isBlank c = false) : isLineEnd c = false := by
  rw [Bool.eq_false_iff] at h ⊢
  intro hend
  apply h
  simp only [isLineEnd, Bool.or_eq_true, Bool.and_eq_true, decide_eq_true_eq, beq_iff_eq] at hend
  simp only [isBlank, blankRanges, inRanges_cons_iff]
  omega

/-! ### Lines -/

theorem linesList_go_append {line : List Char} (h : ∀ c ∈ line, isLineEnd c = false)
    (read rest : List Char) :
    linesList.go false read (line ++ rest) = linesList.go false (line.reverse ++ read) rest := by
  induction line generalizing read with
  | nil => rfl
  | cons c line ih =>
    have hc : isLineEnd c = false := h c mem_cons_self
    have hreturn : ∀ cs, ¬ (c = '\r' ∧ line ++ rest = '\n' :: cs) :=
      fun _ hcs => ne_return_of_isLineEnd hc hcs.1
    rw [cons_append, linesList.go.eq_3 _ _ _ _ (by simpa using hreturn)]
    rw [if_neg (by simp [hc]), ih fun c' hc' => h c' (mem_cons_of_mem _ hc')]
    simp

theorem linesList_go_feed (read rest : List Char) :
    linesList.go false read ('\n' :: rest) = read.reverse :: linesList.go false [] rest := by
  rw [linesList.go.eq_3 _ _ _ _ (by simp)]
  rfl

def IsLine (cs : List Char) : Prop :=
  cs ≠ [] ∧ ∀ c ∈ cs, isLineEnd c = false

theorem linesList_intercalate {ls : List (List Char)} (h : ∀ l ∈ ls, IsLine l) :
    linesList false (['\n'].intercalate ls) = ls := by
  unfold linesList
  induction ls with
  | nil => rfl
  | cons l rest ih =>
    have hl : IsLine l := h l mem_cons_self
    cases rest with
    | nil =>
      have happend := linesList_go_append hl.2 [] []
      simp only [append_nil] at happend
      simp [intercalate, happend, linesList.go, hl.1]
    | cons l' rest =>
      have hcons : ['\n'].intercalate (l :: l' :: rest)
          = l ++ '\n' :: ['\n'].intercalate (l' :: rest) := by
        simp [intercalate, intersperse]
      rw [hcons, linesList_go_append hl.2, linesList_go_feed,
        ih fun m hm => h m (mem_cons_of_mem _ hm)]
      simp

theorem toList_join_eq_flatMap (sep l : String) (ls : List String) :
    (join sep (l :: ls)).toList = l.toList ++ ls.flatMap fun l => sep.toList ++ l.toList := by
  rw [join, String.toList_intercalate]
  induction ls generalizing l with
  | nil => simp [intercalate]
  | cons l' ls ih =>
    rw [map_cons, map_cons, intercalate_cons_cons, ← map_cons, ih]
    simp

theorem join_concat (sep l : String) (ls : List String) (last : String) :
    join sep (l :: ls ++ [last]) = join sep (l :: ls) ++ sep ++ last := by
  rw [← String.toList_inj, cons_append, toList_join_eq_flatMap]
  simp [toList_join_eq_flatMap]

theorem toList_join_cons (l : String) (ls : List String) :
    (join "\n" (l :: ls)).toList = l.toList ++ ls.flatMap ('\n' :: ·.toList) :=
  toList_join_eq_flatMap "\n" l ls

theorem lines_join {ls : List String} (h : ∀ l ∈ ls, IsLine l.toList) :
    lines (join "\n" ls) = ls := by
  have hmap : ∀ l ∈ ls.map String.toList, IsLine l := by
    intro l hl
    obtain ⟨s, hs, rfl⟩ := mem_map.1 hl
    exact h s hs
  have hfeed : "\n".toList = ['\n'] := rfl
  rw [lines, join, String.toList_intercalate, hfeed, linesList_intercalate hmap, map_map]
  simp [Function.comp_def]

/-! ### Numbers -/

theorem toNat_digit (h : c.isDigit = true) : 48 ≤ c.toNat ∧ c.toNat < 58 := by
  simp only [Char.isDigit, Bool.and_eq_true, decide_eq_true_eq, UInt32.le_iff_toNat_le] at h
  have hlow : 48 ≤ c.toNat := h.1
  have hhigh : c.toNat ≤ 57 := h.2
  omega

theorem decimalValue?_digit (h : c.isDigit = true) :
    decimalValue? c = some (c.toNat - '0'.toNat) := by
  have hhead : decimalZeros = 0x30 :: decimalZeros.tail := rfl
  rw [decimalValue?, hhead, find?_cons_of_pos (by simpa using toNat_digit h)]
  rfl

theorem isDecimal_digit (h : c.isDigit = true) : isDecimal c = true := by
  rw [isDecimal, decimalValue?_digit h, Option.isSome_some]

theorem isBlank_digit (h : c.isDigit = true) : isBlank c = false := by
  have hrange := toNat_digit h
  rw [Bool.eq_false_iff]
  simp only [isBlank, blankRanges, Ne, inRanges_cons_iff, inRanges_nil, Bool.false_eq_true]
  omega

theorem digitsValue_digits (h : ∀ c ∈ cs, c.isDigit = true) :
    digitsValue (String.ofList cs) = Nat.ofDigitChars 10 cs 0 := by
  unfold digitsValue Nat.ofDigitChars
  rw [String.toList_ofList]
  apply foldl_ext
  intro n c hc
  rw [decimalValue?_digit (h c hc), Option.getD_some]

theorem digitsValue_toDigits (n : Nat) : digitsValue (String.ofList (Nat.toDigits 10 n)) = n := by
  rw [digitsValue_digits fun c hc => Nat.isDigit_of_mem_toDigits (by decide) (by decide) hc,
    Nat.ofDigitChars_ten_toDigits]

/-! ### White space at the ends -/

theorem trimList_eq_self (h : ∀ c ∈ cs, p c = false) : trimList p cs = cs := by
  have hdrop : ∀ {l : List Char}, (∀ c ∈ l, p c = false) → l.dropWhile p = l := by
    intro l hl
    cases l with
    | nil => rfl
    | cons c l => exact dropWhile_cons_of_neg (by simp [hl c mem_cons_self])
  have hreverse : ∀ c ∈ cs.reverse, p c = false := fun c hc => h c (mem_reverse.1 hc)
  rw [trimList, hdrop h, hdrop hreverse, reverse_reverse]

theorem trimList_ne_nil (hc : c ∈ cs) (h : p c = false) : trimList p cs ≠ [] := by
  have hfirst : c ∈ cs.dropWhile p := by
    have hsplit : c ∈ cs.takeWhile p ++ cs.dropWhile p := by
      rwa [takeWhile_append_dropWhile]
    rcases mem_append.1 hsplit with htake | hdrop
    · exact absurd (mem_takeWhile_imp htake) (by simp [h])
    · exact hdrop
  intro hnil
  have hall : (cs.dropWhile p).reverse.dropWhile p = [] := reverse_eq_nil_iff.1 hnil
  have hp := dropWhile_eq_nil_iff.1 hall c (mem_reverse.2 hfirst)
  exact absurd hp (by simp [h])

theorem trimList_append {before inner after : List Char} (hbefore : ∀ c ∈ before, p c = true)
    (hinner : inner ≠ []) (hink : ∀ c ∈ inner, p c = false) (hafter : ∀ c ∈ after, p c = true) :
    trimList p (before ++ (inner ++ after)) = inner := by
  have hdrop : ∀ {l r : List Char}, l ≠ [] → (∀ c ∈ l, p c = false) →
      (l ++ r).dropWhile p = l ++ r := by
    intro l r hne hl
    obtain ⟨c, l, rfl⟩ := exists_cons_of_ne_nil hne
    exact dropWhile_cons_of_neg (by simp [hl c mem_cons_self])
  have hreverse : ∀ c ∈ after.reverse, p c = true := fun c hc => hafter c (mem_reverse.1 hc)
  have hinnerReverse := hdrop (r := []) (reverse_ne_nil_iff.2 hinner) fun c hc =>
    hink c (mem_reverse.1 hc)
  rw [append_nil] at hinnerReverse
  rw [trimList, dropWhile_append_of_pos hbefore, hdrop hinner hink, reverse_append,
    dropWhile_append_of_pos hreverse, hinnerReverse, reverse_reverse]

theorem isEmpty_strip (hc : c ∈ s.toList) (h : isBlank c = false) : (strip s).isEmpty = false := by
  simpa [strip] using trimList_ne_nil hc h

/-! ### Beginnings -/

@[simp] theorem dropStart?_append (start cs : List Char) :
    dropStart? start (start ++ cs) = some cs := by
  induction start with
  | nil => cases cs <;> rfl
  | cons c start ih => simp [dropStart?, ih]

theorem eq_append_of_dropStart? {start rest : List Char} (h : dropStart? start cs = some rest) :
    cs = start ++ rest := by
  induction start generalizing cs with
  | nil =>
    rw [dropStart?, Option.some.injEq] at h
    exact h
  | cons c start ih =>
    cases cs with
    | nil => simp [dropStart?] at h
    | cons d cs =>
      by_cases hcd : c = d
      · subst hcd
        rw [dropStart?, if_pos (by simp)] at h
        rw [ih h, cons_append]
      · simp [dropStart?, hcd] at h

/-! ### Occurrences -/

theorem startsWithList_iff {p : List Char} : startsWithList p cs = true ↔ p <+: cs := by
  rw [startsWithList, Option.isSome_iff_exists]
  constructor
  · rintro ⟨rest, hrest⟩
    exact ⟨rest, (eq_append_of_dropStart? hrest).symm⟩
  · rintro ⟨rest, rfl⟩
    exact ⟨rest, dropStart?_append p rest⟩

theorem occursIn_iff {p : String} : occursIn p s = true ↔ p.toList <:+: s.toList := by
  rw [occursIn]
  induction s.toList with
  | nil => cases p.toList <;> simp [findList?]
  | cons c cs ih =>
    rw [findList?, infix_cons_iff, ← startsWithList_iff, ← ih]
    cases startsWithList p.toList (c :: cs) <;> simp

theorem infix_append_cons_iff {p x y : List Char} (hc : c ∉ p) :
    p <:+: x ++ c :: y ↔ p <:+: x ∨ p <:+: y := by
  constructor
  · rintro ⟨before, after, h⟩
    rw [append_assoc] at h
    rcases append_eq_append_iff.1 h with ⟨l, rfl, hl⟩ | ⟨l, rfl, hl⟩
    · rcases append_eq_append_iff.1 hl with ⟨l', rfl, -⟩ | ⟨l', rfl, hl'⟩
      · exact .inl ⟨before, l', by simp⟩
      · cases l' with
        | nil => exact .inl ⟨before, [], by simp⟩
        | cons d l' => exact absurd (by simp [(cons.inj hl').1]) hc
    · cases l with
      | nil =>
        cases p with
        | nil => exact .inl nil_infix
        | cons d p => exact absurd (by simp [(cons.inj hl).1]) hc
      | cons d l => exact .inr ⟨l, after, by simpa using (cons.inj hl).2.symm⟩
  · rintro (h | h)
    · exact h.trans (prefix_append _ _).isInfix
    · exact h.trans ((suffix_cons c y).trans (suffix_append _ _)).isInfix

/-! ### Splitting -/

theorem splitListFrom_skip (sep : List Char) (n : Nat) (cs : List Char) :
    splitListFrom sep n cs = splitListFrom sep 0 (cs.drop n) := by
  induction n generalizing cs with
  | zero => rw [drop_zero]
  | succ n ih =>
    cases cs with
    | nil => rfl
    | cons c cs => rw [splitListFrom, ih, drop_succ_cons]

theorem splitList_sep_append (hsep : sep ≠ []) (rest : List Char) :
    splitList sep (sep ++ rest) = [] :: splitList sep rest := by
  obtain ⟨c, sep', rfl⟩ := exists_cons_of_ne_nil hsep
  have hstart : startsWithList (c :: sep') (c :: (sep' ++ rest)) = true :=
    startsWithList_iff.2 ⟨rest, rfl⟩
  have hdrop : (sep' ++ rest).drop ((c :: sep').length - 1) = rest := by simp
  rw [cons_append, splitList, splitListFrom, if_pos hstart, splitListFrom_skip, hdrop]
  rfl

theorem splitList_of_not_sep (h : ¬ sep <+: c :: cs) :
    splitList sep (c :: cs) = (splitList sep cs).modifyHead (c :: ·) := by
  rw [← startsWithList_iff] at h
  rw [splitList, splitListFrom, if_neg h]
  rfl

theorem split_induction (hsep : sep ≠ []) {P : List Char → Prop} (nil : P [])
    (found : ∀ rest, P rest → P (sep ++ rest))
    (passed : ∀ c cs, ¬ sep <+: c :: cs → P cs → P (c :: cs)) (cs : List Char) : P cs := by
  induction hn : cs.length using Nat.strong_induction_on generalizing cs with
  | _ n ih =>
    by_cases hprefix : sep <+: cs
    · obtain ⟨rest, rfl⟩ := hprefix
      have hlength : 0 < sep.length := length_pos_of_ne_nil hsep
      exact found rest (ih rest.length (by rw [← hn, length_append]; omega) rest rfl)
    · cases cs with
      | nil => exact nil
      | cons c cs =>
        exact passed c cs hprefix (ih cs.length (by rw [← hn, length_cons]; omega) cs rfl)

theorem intercalate_splitList (hsep : sep ≠ []) (cs : List Char) :
    sep.intercalate (splitList sep cs) = cs := by
  induction cs using split_induction hsep with
  | nil => rfl
  | found rest ih =>
    rw [splitList_sep_append hsep, splitList, intercalate_cons_cons, nil_append]
    exact congrArg (sep ++ ·) ih
  | passed c cs hprefix ih =>
    obtain ⟨first, rest, hcs⟩ : ∃ first rest, splitList sep cs = first :: rest := ⟨_, _, rfl⟩
    rw [hcs] at ih
    rw [splitList_of_not_sep hprefix, hcs]
    cases rest <;> simpa [intercalate] using ih

theorem prefix_of_splitList (hsep : sep ≠ []) {rest : List (List Char)}
    (h : splitList sep cs = first :: rest) : first <+: cs := by
  rw [← intercalate_splitList hsep cs, h]
  cases rest with
  | nil => simp [intercalate]
  | cons next rest =>
    rw [intercalate_cons_cons, append_assoc]
    exact prefix_append _ _

theorem not_infix_of_mem_splitList (hsep : sep ≠ []) (h : piece ∈ splitList sep cs) :
    ¬ sep <:+: piece := by
  have hnil : ¬ sep <:+: [] := fun hinside => hsep (eq_nil_of_infix_nil hinside)
  induction cs using split_induction hsep generalizing piece with
  | nil =>
    obtain rfl : piece = [] := by simpa [splitList, splitListFrom] using h
    exact hnil
  | found rest ih =>
    rw [splitList_sep_append hsep] at h
    rcases mem_cons.1 h with rfl | h
    · exact hnil
    · exact ih h
  | passed c cs hprefix ih =>
    obtain ⟨first, rest, hcs⟩ : ∃ first rest, splitList sep cs = first :: rest := ⟨_, _, rfl⟩
    rw [splitList_of_not_sep hprefix, hcs, modifyHead_cons] at h
    rw [hcs] at ih
    rcases mem_cons.1 h with rfl | h
    · rw [infix_cons_iff]
      rintro (hstart | hinside)
      · refine hprefix (hstart.trans ?_)
        exact (cons_prefix_cons.2 ⟨rfl, prefix_of_splitList hsep hcs⟩)
      · exact ih mem_cons_self hinside
    · exact ih (mem_cons_of_mem _ h)

theorem splitList_of_not_infix (h : ¬ sep <:+: cs) : splitList sep cs = [cs] := by
  induction cs with
  | nil => rfl
  | cons c cs ih =>
    rw [infix_cons_iff, not_or] at h
    rw [splitList_of_not_sep h.1, ih h.2, modifyHead_cons]

/-- What follows a text and does not divide it stays with its last piece. -/
theorem splitList_append_tail {tail : List Char} (hsep : sep ≠ []) (htail : ¬ sep <:+: tail)
    (hseam : ∀ c cs, sep <+: c :: (cs ++ tail) → sep <+: c :: cs) (cs : List Char) :
    ∃ front last, splitList sep cs = front ++ [last] ∧
      splitList sep (cs ++ tail) = front ++ [last ++ tail] := by
  induction cs using split_induction hsep with
  | nil => exact ⟨[], [], rfl, splitList_of_not_infix htail⟩
  | found rest ih =>
    obtain ⟨front, last, hrest, htail⟩ := ih
    refine ⟨[] :: front, last, ?_, ?_⟩
    · rw [splitList_sep_append hsep, hrest, cons_append]
    · rw [append_assoc, splitList_sep_append hsep, htail, cons_append]
  | passed c cs hprefix ih =>
    obtain ⟨front, last, hcs, htail⟩ := ih
    have hpast : ¬ sep <+: c :: (cs ++ tail) := fun h => hprefix (hseam c cs h)
    rw [cons_append, splitList_of_not_sep hprefix, splitList_of_not_sep hpast, hcs, htail]
    cases front with
    | nil => exact ⟨[], c :: last, rfl, rfl⟩
    | cons first front => exact ⟨(c :: first) :: front, last, rfl, rfl⟩

/-- A doubled character divides a text where it stands, unless the character stands right in front
of it, too. -/
theorem splitList_append_double {x : List Char} (hx : x.getLast? ≠ some c) (y : List Char) :
    splitList [c, c] (x ++ [c, c] ++ y) = splitList [c, c] x ++ splitList [c, c] y := by
  have hsep : [c, c] ≠ [] := cons_ne_nil _ _
  induction x using split_induction hsep with
  | nil => exact splitList_sep_append hsep y
  | found rest ih =>
    have hrest : rest.getLast? ≠ some c := by
      cases rest with
      | nil => simp at hx
      | cons d rest => simpa using hx
    rw [append_assoc [c, c] rest, append_assoc [c, c] (rest ++ [c, c]),
      splitList_sep_append hsep, splitList_sep_append hsep, ih hrest, cons_append]
  | passed d x hprefix ih =>
    have hlast : x.getLast? ≠ some c := by
      cases x with
      | nil => simp
      | cons e x => simpa using hx
    have hstart : ¬ [c, c] <+: d :: (x ++ [c, c] ++ y) := by
      cases x with
      | nil =>
        intro hstart
        have hd : c = d := (cons_prefix_cons.1 hstart).1
        exact hx (by simp [hd])
      | cons e x => simpa [cons_prefix_cons] using hprefix
    obtain ⟨first, rest, hfirst⟩ : ∃ first rest, splitList [c, c] x = first :: rest := ⟨_, _, rfl⟩
    rw [cons_append, cons_append, splitList_of_not_sep hstart, ih hlast,
      splitList_of_not_sep hprefix, hfirst]
    rfl

theorem join_split_of_ne (s : String) {sep : String} (hsep : sep.toList ≠ []) :
    join sep (split s sep) = s := by
  rw [← String.toList_inj, join, String.toList_intercalate, split, map_map]
  simp [Function.comp_def, intercalate_splitList hsep]

/-! ### Splitting at a character -/

theorem startsWithList_single (c d : Char) (cs : List Char) :
    startsWithList [c] (d :: cs) = (c == d) := by
  simp only [startsWithList, dropStart?]
  cases c == d <;> rfl

theorem findList?_isSome_of_mem (h : c ∈ cs) : (findList? [c] cs).isSome = true := by
  induction cs with
  | nil => exact absurd h (by simp)
  | cons d cs ih =>
    rw [findList?, startsWithList_single]
    by_cases hd : c = d
    · simp [hd]
    · have hcs : c ∈ cs := (mem_cons.1 h).resolve_left hd
      simp [hd, ih hcs]

theorem splitList_cons (c d : Char) (cs : List Char) : splitList [c] (d :: cs) =
    if c = d then [] :: splitList [c] cs else (splitList [c] cs).modifyHead (d :: ·) := by
  by_cases hd : c = d <;> simp [splitList, splitListFrom, startsWithList_single, hd]

theorem splitList_of_not_mem (h : c ∉ cs) : splitList [c] cs = [cs] :=
  splitList_of_not_infix fun hinside => h (hinside.subset mem_cons_self)

theorem splitList_append (h : c ∉ first) (rest : List Char) :
    splitList [c] (first ++ c :: rest) = first :: splitList [c] rest := by
  induction first with
  | nil => rw [nil_append, splitList_cons, if_pos rfl]
  | cons d first ih =>
    rw [mem_cons, not_or] at h
    rw [cons_append, splitList_cons, if_neg h.1, ih h.2, modifyHead_cons]

theorem not_mem_of_mem_splitList (h : piece ∈ splitList [c] cs) : c ∉ piece := by
  intro hc
  obtain ⟨before, after, rfl⟩ := append_of_mem hc
  exact not_infix_of_mem_splitList (cons_ne_nil c []) h ⟨before, after, by simp⟩

theorem split_headD {sep : String} (hsep : sep.toList = [c]) (h : c ∉ first) (rest : List Char) :
    (split (String.ofList (first ++ c :: rest)) sep).headD "" = String.ofList first := by
  rw [split, String.toList_ofList, hsep, splitList_append h, map_cons, headD_cons]

theorem not_mem_of_mem_split {sep : String} (hsep : sep.toList = [c]) {piece : String}
    (h : piece ∈ split s sep) : c ∉ piece.toList := by
  rw [split, hsep] at h
  obtain ⟨cs, hcs, rfl⟩ := mem_map.1 h
  rw [String.toList_ofList]
  exact not_mem_of_mem_splitList hcs

theorem split_join {sep : String} (hsep : sep.toList = [c]) {pieces : List String}
    (hne : pieces ≠ []) (h : ∀ piece ∈ pieces, c ∉ piece.toList) :
    split (join sep pieces) sep = pieces := by
  rw [split, join, String.toList_intercalate, hsep]
  induction pieces with
  | nil => exact absurd rfl hne
  | cons piece rest ih =>
    have hpiece : c ∉ piece.toList := h piece mem_cons_self
    cases rest with
    | nil => simp [intercalate, splitList_of_not_mem hpiece]
    | cons next rest =>
      have hrest := ih (cons_ne_nil next rest) fun x hx => h x (mem_cons_of_mem _ hx)
      have hcons : [c].intercalate ((piece :: next :: rest).map String.toList) =
          piece.toList ++ c :: [c].intercalate ((next :: rest).map String.toList) := by
        simp [intercalate]
      rw [hcons, splitList_append hpiece, map_cons, hrest, String.ofList_toList]

theorem join_split (s : String) {sep : String} (hsep : sep.toList = [c]) :
    join sep (split s sep) = s :=
  join_split_of_ne s (by simp [hsep])

theorem mem_of_mem_split {sep : String} {d : Char} (hsep : sep.toList = [c]) {piece : String}
    (h : piece ∈ split s sep) (hd : d ∈ piece.toList) : d ∈ s.toList := by
  rw [← join_split s hsep]
  cases hpieces : split s sep with
  | nil =>
    rw [hpieces] at h
    cases h
  | cons first rest =>
    rw [toList_join_eq_flatMap, mem_append, mem_flatMap]
    rw [hpieces] at h
    rcases mem_cons.1 h with rfl | h
    · exact .inl hd
    · exact .inr ⟨piece, h, mem_append_right _ hd⟩

theorem toList_replace {old new : String} (h : old.toList = [c]) :
    (replace s old new).toList = s.toList.flatMap fun d => if c = d then new.toList else [d] := by
  have hlist : ∀ cs, ∃ first rest, splitList [c] cs = first :: rest ∧
      first ++ rest.flatMap (new.toList ++ ·) =
        cs.flatMap fun d => if c = d then new.toList else [d] := by
    intro cs
    induction cs with
    | nil => exact ⟨[], [], rfl, rfl⟩
    | cons d cs ih =>
      obtain ⟨first, rest, hsplit, hall⟩ := ih
      rw [splitList_cons, hsplit, flatMap_cons, ← hall]
      by_cases hd : c = d
      · exact ⟨[], first :: rest, by rw [if_pos hd], by simp [hd]⟩
      · exact ⟨d :: first, rest, by rw [if_neg hd, modifyHead_cons], by simp [hd]⟩
  obtain ⟨first, rest, hsplit, hall⟩ := hlist s.toList
  rw [replace, split, h, hsplit, map_cons, toList_join_eq_flatMap, ← hall]
  simp [flatMap_map]

/-! ### Endings -/

theorem endsWith_iff {p : String} : endsWith s p = true ↔ p.toList <:+ s.toList := by
  rw [endsWith, startsWithList_iff, reverse_prefix]

theorem endsWith_of_endsWith {p q : String} (hp : endsWith s p = true) (hq : endsWith s q = true)
    (hlength : p.toList.length ≤ q.toList.length) : endsWith q p = true := by
  rw [endsWith_iff] at hp hq ⊢
  exact suffix_of_suffix_length_le hp hq hlength

theorem endsWith_join (sep : String) (pieces : List String) (last : String) :
    endsWith (join sep (pieces ++ [last])) last = true := by
  rw [endsWith_iff, join, String.toList_intercalate]
  induction pieces with
  | nil => simp [intercalate]
  | cons piece pieces ih =>
    refine ih.trans ?_
    obtain ⟨next, rest, hrest⟩ : ∃ next rest, (pieces ++ [last]).map String.toList = next :: rest :=
      exists_cons_of_ne_nil (by simp)
    rw [cons_append, map_cons, hrest]
    exact ⟨piece.toList ++ sep.toList, by simp [intercalate]⟩

end CodeAtlas.Text

import CodeAtlas.Proofs.Text
import Mathlib.Data.List.DropRight

/-!
# Lines cut at line feeds

A text that is cut at its line feeds can be read on from the start of any of its
lines: the lines from there on are the lines of the rest of the text
(`drop_split`). A position stands behind what its line has in front of it
(`lineHead`), and that begins at the start of a line.

The beginnings of a text of several lines are told apart by whether they reach
beyond the first line (`prefix_line_cases`). With this, what keeps the first
lines of a text is compared with a beginning of it, line by line.
-/

namespace CodeAtlas.Text

open List

variable {c : Char} {front line text more : List Char} {rest : List String} (content : String)
  (cs : List Char) (pos : Nat)

/-! ### The first occurrence of a character -/

theorem findList?_eq_none_iff {cs : List Char} : findList? [c] cs = none ↔ c ∉ cs := by
  induction cs with
  | nil => simp [findList?]
  | cons d cs ih =>
    rw [findList?, startsWithList_single, mem_cons, not_or, ← ih]
    by_cases hd : c = d <;> simp [hd]

theorem findList?_append {before : List Char} (h : c ∉ before) (after : List Char) :
    findList? [c] (before ++ c :: after) = some before.length := by
  induction before with
  | nil => simp [findList?, startsWithList_single]
  | cons d before ih =>
    rw [mem_cons, not_or] at h
    rw [cons_append, findList?, startsWithList_single, beq_false_of_ne h.1, ih h.2]
    rfl

theorem findList?_eq_some_iff {cs : List Char} {n : Nat} :
    findList? [c] cs = some n ↔
      ∃ before after, cs = before ++ c :: after ∧ c ∉ before ∧ before.length = n := by
  constructor
  · intro h
    have hmem : c ∈ cs := by
      by_contra hc
      rw [findList?_eq_none_iff.2 hc] at h
      cases h
    obtain ⟨before, after, rfl, hbefore⟩ := eq_append_cons_of_mem hmem
    rw [findList?_append hbefore, Option.some.injEq] at h
    exact ⟨before, after, rfl, hbefore, h⟩
  · rintro ⟨before, after, rfl, hbefore, rfl⟩
    exact findList?_append hbefore after

/-! ### Pieces behind a separator -/

theorem splitList_append_sep (c : Char) (front rest : List Char) :
    splitList [c] (front ++ c :: rest) = splitList [c] front ++ splitList [c] rest := by
  induction front with
  | nil => exact splitList_append (not_mem_nil (a := c)) rest
  | cons d front ih =>
    rw [cons_append, splitList_cons, splitList_cons, ih]
    split
    · rfl
    · obtain ⟨first, pieces, hfront⟩ : ∃ first pieces, splitList [c] front = first :: pieces :=
        ⟨_, _, rfl⟩
      rw [hfront]
      rfl

theorem length_splitList (c : Char) : (splitList [c] cs).length = cs.count c + 1 := by
  induction cs with
  | nil => rfl
  | cons d cs ih =>
    rw [splitList_cons]
    by_cases hd : c = d
    · subst hd
      simp [ih]
    · simp [hd, Ne.symm hd, ih]

def EndsLine (front : List Char) : Prop := front = [] ∨ ∃ lines, front = lines ++ ['\n']

theorem drop_splitList (hfront : EndsLine front) (rest : List Char) :
    (splitList ['\n'] (front ++ rest)).drop (front.count '\n') = splitList ['\n'] rest := by
  rcases hfront with rfl | ⟨lines, rfl⟩
  · rfl
  · rw [append_assoc, singleton_append, splitList_append_sep, count_append,
      count_singleton_self, ← length_splitList, drop_left]

/-! ### The line of a position -/

/-- What stands on the line of a position in front of it. -/
def lineHead (cs : List Char) (pos : Nat) : List Char := (cs.take pos).rtakeWhile (· != '\n')

def fromLine (cs : List Char) (pos : Nat) : List Char := lineHead cs pos ++ cs.drop pos

theorem feed_not_mem_lineHead : '\n' ∉ lineHead cs pos := by
  intro h
  simpa using mem_rtakeWhile_imp h

theorem lineHead_add {cs gap : List Char} {pos : Nat} (hdrop : cs.drop pos = gap ++ more)
    (hgap : '\n' ∉ gap) : lineHead cs (pos + gap.length) = lineHead cs pos ++ gap := by
  have hall : ∀ c ∈ gap.reverse, (c != '\n') = true := by
    intro c hc
    rw [bne_iff_ne]
    rintro rfl
    exact hgap (mem_reverse.1 hc)
  rw [lineHead, lineHead, take_add, hdrop, take_left, rtakeWhile, rtakeWhile, reverse_append,
    takeWhile_append_of_pos hall, reverse_append, reverse_reverse]

theorem endsLine_rdropWhile : EndsLine (cs.rdropWhile (· != '\n')) := by
  by_cases hnil : cs.rdropWhile (· != '\n') = []
  · exact .inl hnil
  · have hlast := rdropWhile_last_not _ cs hnil
    refine .inr ⟨(cs.rdropWhile (· != '\n')).dropLast, ?_⟩
    rw [← dropLast_append_getLast hnil, dropLast_concat]
    simpa using hlast

theorem exists_fromLine :
    ∃ front, EndsLine front ∧ cs.take pos = front ++ lineHead cs pos ∧
      cs = front ++ fromLine cs pos := by
  have htake : cs.take pos = (cs.take pos).rdropWhile (· != '\n') ++ lineHead cs pos :=
    rdropWhile_append_rtakeWhile.symm
  refine ⟨_, endsLine_rdropWhile (cs.take pos), htake, ?_⟩
  rw [fromLine, ← append_assoc, ← htake, take_append_drop]

theorem drop_split :
    (split content "\n").drop ((content.toList.take pos).count '\n') =
      split (String.ofList (fromLine content.toList pos)) "\n" := by
  obtain ⟨front, hfront, htake, hcs⟩ := exists_fromLine content.toList pos
  have hcount : (content.toList.take pos).count '\n' = front.count '\n' := by
    rw [htake, count_append, count_eq_zero_of_not_mem (feed_not_mem_lineHead _ _), Nat.add_zero]
  have hfeed : "\n".toList = ['\n'] := rfl
  rw [split, split, hfeed, String.toList_ofList, ← map_drop, hcount]
  conv_lhs => rw [hcs]
  rw [drop_splitList hfront]

theorem exists_lines_at :
    ∃ first rest, (split content "\n").drop ((content.toList.take pos).count '\n') = first :: rest ∧
      (join "\n" (first :: rest)).toList = fromLine content.toList pos ∧
      ∀ l ∈ first :: rest, '\n' ∉ l.toList := by
  obtain ⟨first, rest, hsplit⟩ : ∃ first rest,
      split (String.ofList (fromLine content.toList pos)) "\n" = first :: rest := ⟨_, _, rfl⟩
  refine ⟨first, rest, (drop_split content pos).trans hsplit, ?_, ?_⟩
  · rw [← hsplit, join_split _ (c := '\n') rfl, String.toList_ofList]
  · rw [← hsplit]
    intro l hl
    exact not_mem_of_mem_split rfl hl

/-! ### Beginnings of lines -/

theorem prefix_line_cases {rest : List Char} (h : text <+: line ++ '\n' :: rest) :
    text <+: line ∨ ∃ more, text = line ++ '\n' :: more ∧ more <+: rest := by
  rcases prefix_or_prefix_of_prefix h (prefix_append line ('\n' :: rest)) with h' | h'
  · exact .inl h'
  · obtain ⟨more, rfl⟩ := h'
    rw [prefix_append_right_inj, prefix_cons_iff] at h
    rcases h with rfl | ⟨more, rfl, hmore⟩
    · exact .inl (by simp)
    · exact .inr ⟨more, rfl, hmore⟩

theorem exists_of_prefix_feed {rest x : List Char} (hfront : '\n' ∉ front)
    (h : x ++ ['\n'] <+: front ++ rest) : ∃ y, x = front ++ y ∧ y ++ ['\n'] <+: rest := by
  rcases prefix_or_prefix_of_prefix h (prefix_append front rest) with h' | h'
  · exact absurd (h'.subset (by simp)) hfront
  · rcases prefix_concat_iff.1 h' with rfl | ⟨y, rfl⟩
    · exact absurd (by simp) hfront
    · refine ⟨y, rfl, ?_⟩
      rwa [append_assoc, prefix_append_right_inj] at h

theorem feed_prefix_iff {rest x : List Char} (hline : '\n' ∉ line) :
    x ++ ['\n'] <+: line ++ '\n' :: rest ↔
      x = line ∨ ∃ more, x = line ++ '\n' :: more ∧ more ++ ['\n'] <+: rest := by
  constructor
  · intro h
    obtain ⟨y, rfl, hy⟩ := exists_of_prefix_feed hline h
    cases y with
    | nil => exact .inl (append_nil line)
    | cons c y =>
      obtain ⟨rfl, hmore⟩ := cons_prefix_cons.1 hy
      exact .inr ⟨y, rfl, hmore⟩
  · rintro (rfl | ⟨more, rfl, hmore⟩)
    · exact ⟨rest, by simp⟩
    · rw [append_assoc, prefix_append_right_inj]
      exact (prefix_cons_inj '\n').2 hmore

theorem toList_join_cons_cons (line next : String) (rest : List String) :
    (join "\n" (line :: next :: rest)).toList =
      line.toList ++ '\n' :: (join "\n" (next :: rest)).toList := by
  rw [toList_join_cons, toList_join_cons, flatMap_cons, cons_append]

theorem prefix_line_of_prefix_join {line : String} (hfeed : '\n' ∉ text)
    (h : text <+: (join "\n" (line :: rest)).toList) : text <+: line.toList := by
  cases rest with
  | nil => simpa [toList_join_cons] using h
  | cons next rest =>
    rw [toList_join_cons_cons] at h
    rcases prefix_line_cases h with h | ⟨more, rfl, -⟩
    · exact h
    · exact absurd (by simp) hfeed

theorem append_feed_prefix_join_iff {line next : String} :
    line.toList ++ '\n' :: more <+: (join "\n" (line :: next :: rest)).toList ↔
      more <+: (join "\n" (next :: rest)).toList := by
  rw [toList_join_cons_cons, prefix_append_right_inj, prefix_cons_inj]

theorem not_append_feed_prefix_join_singleton (line : String) (more : List Char) :
    ¬ line.toList ++ '\n' :: more <+: (join "\n" [line]).toList := by
  intro h
  have hlen := h.length_le
  rw [toList_join_cons, length_append, length_cons] at hlen
  simp only [flatMap_nil, append_nil] at hlen
  omega

/-- A beginning of a text is kept by what keeps the first line and those behind it up to some line,
if the lines that the beginning reaches are kept. -/
theorem prefix_takeWhile_iff {p : String → Bool} {line : String}
    (hline : ∀ l ∈ line :: rest, '\n' ∉ l.toList)
    (htext : text <+: (join "\n" (line :: rest)).toList) :
    text <+: (join "\n" (line :: rest.takeWhile p)).toList ↔
      ∀ l ∈ rest.take (text.count '\n'), p l = true := by
  induction rest generalizing line text with
  | nil => simpa using htext
  | cons next rest ih =>
    rw [forall_mem_cons] at hline
    rw [toList_join_cons_cons] at htext
    rcases prefix_line_cases htext with hshort | ⟨more, rfl, hmore⟩
    · have hfeed : '\n' ∉ text := fun h => hline.1 (hshort.subset h)
      have hkept := hshort.trans (prefix_append line.toList
        (((next :: rest).takeWhile p).flatMap ('\n' :: ·.toList)))
      rw [toList_join_cons, count_eq_zero_of_not_mem hfeed]
      simpa using hkept
    · have hcount : (line.toList ++ '\n' :: more).count '\n' = more.count '\n' + 1 := by
        rw [count_append, count_eq_zero_of_not_mem hline.1, count_cons_self, Nat.zero_add]
      rw [hcount, take_succ_cons, forall_mem_cons]
      by_cases hp : p next = true
      · rw [takeWhile_cons_of_pos hp, append_feed_prefix_join_iff, ih hline.2 hmore]
        simp [hp]
      · rw [takeWhile_cons_of_neg hp]
        simp [hp, not_append_feed_prefix_join_singleton]

end CodeAtlas.Text

import CodeAtlas.Proofs.Text
import CodeAtlas.Source.Layout

/-!
# Rows and lines of sources

A text has its rows between line feeds. Further characters end lines as well, so
the lines of a text are its rows cut once more: those from a row on come later by
the number of such characters above it (`exists_drop_rows`).

A line of a source begins in the row that it says, and that row has its indent, if
no row ends with a backslash (`exists_row_of_mem`).
-/

namespace CodeAtlas.Text

open List

variable {row cs : List Char}

/-! ### Rows -/

section

variable {ends : Char → Bool} {c : Char}

theorem rowsList_append_end (hrow : ∀ c ∈ row, ends c = false) (hc : ends c = true)
    (rest : List Char) : rowsList ends (row ++ c :: rest) = row :: rowsList ends rest := by
  induction row with
  | nil => simp [rowsList, hc]
  | cons d row ih =>
    rw [cons_append, rowsList, hrow d mem_cons_self, ih fun c hc => hrow c (mem_cons_of_mem _ hc)]
    rfl

theorem rowsList_single (hne : row ≠ []) (hrow : ∀ c ∈ row, ends c = false) :
    rowsList ends row = [row] := by
  induction row with
  | nil => exact absurd rfl hne
  | cons d row ih =>
    rw [rowsList, hrow d mem_cons_self]
    cases row with
    | nil => rfl
    | cons e row =>
      rw [ih (cons_ne_nil e row) fun c hc => hrow c (mem_cons_of_mem _ hc)]
      rfl

/-- A text is empty, or its only row, or a row with its end and a text behind it. -/
theorem rows_induction (ends : Char → Bool) {motive : List Char → Prop} (nil : motive [])
    (single : ∀ row, row ≠ [] → (∀ c ∈ row, ends c = false) → motive row)
    (append : ∀ row c rest, (∀ c ∈ row, ends c = false) → ends c = true → motive rest →
      motive (row ++ c :: rest))
    (cs : List Char) : motive cs := by
  -- carried: a row that was begun in front of the text
  suffices ∀ row, (∀ c ∈ row, ends c = false) → motive (row ++ cs) from this [] (by simp)
  induction cs with
  | nil =>
    intro row hrow
    rw [append_nil]
    rcases eq_or_ne row [] with rfl | hne
    · exact nil
    · exact single row hne hrow
  | cons c cs ih =>
    intro row hrow
    cases hc : ends c with
    | true => exact append row c cs hrow hc (ih [] (by simp))
    | false =>
      rw [← singleton_append, ← append_assoc]
      exact ih _ (forall_mem_append.2 ⟨hrow, by simpa using hc⟩)

theorem rowsList_append (hc : ends c = true) (front rest : List Char) :
    rowsList ends (front ++ c :: rest) = rowsList ends (front ++ [c]) ++ rowsList ends rest := by
  induction front using rows_induction ends with
  | nil => simp [rowsList, hc]
  | single row hne hrow =>
    rw [rowsList_append_end hrow hc, rowsList_append_end hrow hc]
    rfl
  | append row d more hrow hd ih =>
    rw [append_assoc, append_assoc, cons_append, cons_append,
      rowsList_append_end hrow hd, rowsList_append_end hrow hd, ih, cons_append]

theorem length_rowsList_concat (hc : ends c = true) (front : List Char) :
    (rowsList ends (front ++ [c])).length = front.countP ends + 1 := by
  induction front using rows_induction ends with
  | nil => simp [rowsList, hc]
  | single row hne hrow =>
    have hcount : row.countP ends = 0 := countP_eq_zero.2 (by simpa using hrow)
    simp [rowsList_append_end hrow hc, hcount, rowsList]
  | append row d more hrow hd ih =>
    have hcount : row.countP ends = 0 := countP_eq_zero.2 (by simpa using hrow)
    rw [append_assoc, cons_append, rowsList_append_end hrow hd, length_cons, ih,
      countP_append, hcount, countP_cons_of_pos hd, Nat.zero_add]

theorem length_rowsList_le (row : List Char) : (rowsList ends row).length ≤
    row.countP ends + 1 := by
  induction row using rows_induction ends with
  | nil => simp [rowsList]
  | single row hne hrow => simp [rowsList_single hne hrow]
  | append row d more hrow hd ih =>
    rw [rowsList_append_end hrow hd, countP_append, countP_cons_of_pos hd, length_cons]
    omega

theorem rowsList_congr {ends' : Char → Bool} (h : ∀ c ∈ cs, ends c = ends' c) :
    rowsList ends cs = rowsList ends' cs := by
  induction cs with
  | nil => rfl
  | cons c cs ih =>
    rw [forall_mem_cons] at h
    rw [rowsList, rowsList, h.1, ih h.2]

theorem not_ends_of_mem_rowsList (h : row ∈ rowsList ends cs) : ∀ c ∈ row, ends c = false := by
  induction cs using rows_induction ends with
  | nil => cases h
  | single cs hne hcs =>
    rw [rowsList_single hne hcs] at h
    exact mem_singleton.1 h ▸ hcs
  | append front c rest hfront hc ih =>
    rw [rowsList_append_end hfront hc] at h
    rcases mem_cons.1 h with rfl | h
    · exact hfront
    · exact ih h

theorem exists_rows_join (hne : row ≠ []) (h : ∀ c ∈ row, (c == '\n') = false)
    (rows : List (List Char)) :
    ∃ below, Text.rows (join "\n" ((row :: rows).map String.ofList)) = row :: below := by
  rw [Text.rows, map_cons, toList_join_cons, String.toList_ofList]
  cases rows with
  | nil => exact ⟨[], by simpa using rowsList_single hne h⟩
  | cons row' rows =>
    rw [map_cons, flatMap_cons, cons_append, rowsList_append_end h rfl]
    exact ⟨_, rfl⟩

end

theorem linesList_eq_rowsList (h : '\r' ∉ cs) : linesList false cs = rowsList isLineEnd cs := by
  unfold linesList
  induction cs using rows_induction isLineEnd with
  | nil => rfl
  | single row hne hrow =>
    rw [rowsList_single hne hrow, ← append_nil row, linesList_go_append hrow]
    simp [linesList.go, hne]
  | append row c rest hrow hc ih =>
    have hreturn : c ≠ '\r' := fun hc => h (by simp [hc])
    rw [rowsList_append_end hrow hc, linesList_go_append hrow, linesList.go.eq_3 _ _ _ _
      (by simp [hreturn]), if_pos hc, ih fun hmem => h (by simp [hmem])]
    simp

/-! ### Line ends inside of rows -/

/-- The character ends a line but not a row. -/
def isStray (c : Char) : Bool := isLineEnd c && c != '\n'

def strays (rows : List (List Char)) : Nat := rows.foldr (fun row n => row.countP isStray + n) 0

theorem strays_cons (row : List Char) (rows : List (List Char)) :
    strays (row :: rows) = row.countP isStray + strays rows := rfl

theorem isLineEnd_eq_isStray (h : ∀ c ∈ row, (c == '\n') = false) {c : Char} (hc : c ∈ row) :
    isLineEnd c = isStray c := by
  simp [isStray, bne, h c hc]

theorem countP_isLineEnd (h : ∀ c ∈ row, (c == '\n') = false) :
    row.countP isLineEnd = row.countP isStray :=
  countP_congr fun c hc => by rw [isLineEnd_eq_isStray h hc]

theorem exists_drop_rows (cs : List Char) (n : Nat) :
    ∃ rest, rowsList (· == '\n') rest = (rowsList (· == '\n') cs).drop n ∧
      rowsList isLineEnd rest = (rowsList isLineEnd cs).drop
        (n + strays ((rowsList (· == '\n') cs).take n)) := by
  induction cs using rows_induction (· == '\n') generalizing n with
  | nil => exact ⟨[], by simp [rowsList]⟩
  | single row hne hrow =>
    cases n with
    | zero => exact ⟨row, by simp [strays]⟩
    | succ n =>
      have hlen : (rowsList isLineEnd row).length ≤ row.countP isStray + 1 :=
        countP_isLineEnd hrow ▸ length_rowsList_le row
      refine ⟨[], ?_⟩
      rw [rowsList_single hne hrow]
      refine ⟨by simp [rowsList], (drop_eq_nil_of_le ?_).symm⟩
      rw [take_succ_cons, strays_cons]
      omega
  | append row c more hrow hc ih =>
    cases n with
    | zero => exact ⟨row ++ c :: more, by simp [strays]⟩
    | succ n =>
      obtain ⟨rest, hrows, hlines⟩ := ih n
      obtain rfl := beq_iff_eq.1 hc
      have hlen := length_rowsList_concat (show isLineEnd '\n' = true from rfl) row
      rw [countP_isLineEnd hrow] at hlen
      refine ⟨rest, ?_⟩
      rw [rowsList_append_end hrow hc, rowsList_append (show isLineEnd '\n' = true from rfl)]
      refine ⟨hrows, ?_⟩
      rw [hlines, take_succ_cons, strays_cons,
        show n + 1 + (row.countP isStray + strays ((rowsList (· == '\n') more).take n)) =
          (rowsList isLineEnd (row ++ ['\n'])).length +
            (n + strays ((rowsList (· == '\n') more).take n)) by omega,
        drop_length_add_append]

theorem take_rowsList_isLineEnd {n : Nat}
    (h : ∀ row ∈ (rowsList (· == '\n') cs).take n, ∀ c ∈ row, isLineEnd c = false) :
    (rowsList isLineEnd cs).take n = (rowsList (· == '\n') cs).take n := by
  induction cs using rows_induction (· == '\n') generalizing n with
  | nil => rfl
  | single row hne hrow =>
    rw [rowsList_single hne hrow] at h ⊢
    cases n with
    | zero => rfl
    | succ n => rw [rowsList_single hne (h row (by simp))]
  | append row c more hrow hc ih =>
    obtain rfl := beq_iff_eq.1 hc
    rw [rowsList_append_end hrow hc] at h ⊢
    cases n with
    | zero => rfl
    | succ n =>
      rw [take_succ_cons, forall_mem_cons] at h
      rw [rowsList_append_end h.1 rfl, take_succ_cons, take_succ_cons, ih h.2]

end CodeAtlas.Text

namespace CodeAtlas.Source

open List

variable {n : Nat} {row rest : List Char}

/-! ### Lines of sources -/

theorem Scanner.below_readOn (s : Scanner) (last n : Nat) (rows : List (List Char)) :
    ∃ k, (s.readOn last n rows).stop = n + k ∧ (s.readOn last n rows).below = rows.drop k := by
  induction rows generalizing s last n with
  | nil => exact ⟨0, rfl, rfl⟩
  | cons row rows ih =>
    rw [readOn]
    split
    · obtain ⟨k, hstop, hbelow⟩ := ih (s.nextRow row) _ (n + 1)
      exact ⟨k + 1, by rw [hstop]; omega, hbelow⟩
    · exact ⟨0, rfl, rfl⟩

theorem indentOf_suffix (width : Nat) (row : List Char) : (indentOf width row).2 <:+ row := by
  fun_induction indentOf width row with
  | case1 width rest ih => exact ih.trans (suffix_cons _ _)
  | case2 width rest ih => exact ih.trans (suffix_cons _ _)
  | case3 width rest ih => exact ih.trans (suffix_cons _ _)
  | case4 => exact suffix_rfl

theorem readLines_of_blank (h : (indentOf 0 row).2 = [] ∨ (indentOf 0 row).2.head? = some '#')
    (n : Nat) (below : List (List Char)) :
    readLines n 0 (row :: below) = readLines (n + 1) 0 below := by
  rw [readLines]
  rcases h with h | h
  · simp [h]
  · obtain ⟨rest, hrest⟩ := head?_eq_some_iff.1 h
    simp [hrest]

theorem readLines_of_backslash {indent : Nat} (hindent : indentOf 0 row = (indent, '\\' :: rest))
    (hrow : ¬ ['\\'] <:+ row) (below : List (List Char)) :
    (readLines n 0 (row :: below)).2 ≠ none := by
  have hrest : rest.isEmpty = false := by
    rw [Bool.eq_false_iff]
    intro hempty
    have hsuffix := indentOf_suffix 0 row
    rw [hindent, isEmpty_iff.1 hempty] at hsuffix
    exact hrow hsuffix
  rw [readLines, hindent]
  simp [hrest]

theorem readLines_of_token {indent : Nat} {c : Char}
    (hindent : indentOf 0 row = (indent, c :: rest)) (hcomment : c ≠ '#') (hslash : c ≠ '\\')
    {below : List (List Char)} {whole : Whole}
    (hwhole : (Scanner.readRow (c :: rest).length {} (c :: rest)).readOn n n below = whole) :
    readLines n 0 (row :: below) =
      match whole.scanner.flaw with
      | some flaw =>
        ([⟨n, whole.last, indent, whole.scanner.tokens.reverse ++ [⟨.flaw, ""⟩]⟩], some flaw)
      | none =>
        (⟨n, whole.last, indent, whole.scanner.tokens.reverse⟩ ::
          (readLines (whole.stop + 1) 0 whole.below).1,
          (readLines (whole.stop + 1) 0 whole.below).2) := by
  rw [readLines, hindent]
  dsimp only
  split
  · next h => cases h
  · next h => exact absurd (cons.inj h).1 hcomment
  · next h => exact absurd (cons.inj h).1 hslash
  · rw [hwhole]
    rfl

theorem exists_row_of_mem {rows : List (List Char)} (hrows : ∀ row ∈ rows, ¬ ['\\'] <:+ row)
    {lines : List Line} (h : readLines n 0 rows = (lines, none)) {l : Line} (hl : l ∈ lines) :
    ∃ k row below c rest, l.first = n + k ∧ rows.drop k = row :: below ∧
      indentOf 0 row = (l.indent, c :: rest) ∧ c ≠ '#' ∧ c ≠ '\\' := by
  -- on the number of rows, since a line takes several
  induction hlen : rows.length using Nat.strong_induction_on generalizing n rows lines with
  | _ m ih =>
    subst hlen
    cases rows with
    | nil =>
      rw [readLines] at h
      cases h
      cases hl
    | cons row below =>
      obtain ⟨hrow, hbelow⟩ := forall_mem_cons.1 hrows
      by_cases hblank : (indentOf 0 row).2 = [] ∨ (indentOf 0 row).2.head? = some '#'
      · rw [readLines_of_blank hblank] at h
        obtain ⟨k, first, rest, c, cs, hfirst, hdrop⟩ := ih _ (Nat.lt_succ_self _) hbelow h hl rfl
        exact ⟨k + 1, first, rest, c, cs, by omega, hdrop⟩
      · rcases hindent : indentOf 0 row with ⟨indent, _ | ⟨c, rest⟩⟩
        · simp [hindent] at hblank
        · have hcomment : c ≠ '#' := by
            rintro rfl
            simp [hindent] at hblank
          have hslash : c ≠ '\\' := by
            rintro rfl
            exact readLines_of_backslash hindent hrow below (congrArg Prod.snd h)
          rw [readLines_of_token hindent hcomment hslash rfl] at h
          split at h
          · cases h
          · rw [Prod.mk.injEq] at h
            rw [← h.1, mem_cons] at hl
            rcases hl with rfl | hl
            · exact ⟨0, row, below, c, rest, rfl, rfl, hindent, hcomment, hslash⟩
            · obtain ⟨j, hstop, hleft⟩ := Scanner.below_readOn
                (Scanner.readRow (c :: rest).length {} (c :: rest)) n n below
              rw [hleft] at h hl
              obtain ⟨k, first, rest, d, ds, hfirst, hdrop⟩ := ih _
                (by rw [length_drop, length_cons]; omega)
                (fun row hrow => hbelow row (mem_of_mem_drop hrow)) (Prod.ext rfl h.2) hl rfl
              rw [drop_drop] at hdrop
              exact ⟨j + k + 1, first, rest, d, ds, by omega, hdrop⟩

end CodeAtlas.Source

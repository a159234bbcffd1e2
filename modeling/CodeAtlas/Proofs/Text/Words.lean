import CodeAtlas.Proofs.Text

/-!
# Words of a text

A text is read word by word: it is white space, or a word behind white space and
then the rest (`word_induction`). So joined texts have the words of the texts,
wherever these have white space themselves (`words_join_eq_flatMap`).
-/

namespace CodeAtlas.Text

open List

variable {blanks : List Char} {ws : List String} {w : String} {c : Char}

/-- A text without white space that is not empty. -/
def IsWord (cs : List Char) : Prop := cs ≠ [] ∧ ∀ c ∈ cs, isBlank c = false

instance (cs : List Char) : Decidable (IsWord cs) :=
  decidable_of_iff ((!cs.isEmpty && cs.all (!isBlank ·)) = true) (by simp [IsWord])

def StartsBlank (cs : List Char) : Prop := ∀ c, cs.head? = some c → isBlank c = true

theorem startsBlank_nil : StartsBlank [] := by
  intro c hc
  cases hc

theorem startsBlank_cons (h : isBlank c = true) (cs : List Char) : StartsBlank (c :: cs) := by
  rintro d ⟨⟩
  exact h

theorem wordsList_go_append {w : List Char} (hw : ∀ c ∈ w, isBlank c = false)
    (word rest : List Char) :
    wordsList.go word (w ++ rest) = wordsList.go (w.reverse ++ word) rest := by
  induction w generalizing word with
  | nil => rfl
  | cons c w ih =>
    obtain ⟨hc, hw⟩ := forall_mem_cons.1 hw
    rw [cons_append, wordsList.go, if_neg (Bool.eq_false_iff.1 hc), ih hw,
      reverse_cons, append_assoc, singleton_append]

theorem wordsList_blanks (h : ∀ c ∈ blanks, isBlank c = true) (cs : List Char) :
    wordsList (blanks ++ cs) = wordsList cs := by
  induction blanks with
  | nil => rfl
  | cons c blanks ih =>
    obtain ⟨hc, hblanks⟩ := forall_mem_cons.1 h
    rw [cons_append, wordsList, wordsList.go, if_pos hc]
    exact ih hblanks

theorem wordsList_of_blank (h : ∀ c ∈ blanks, isBlank c = true) : wordsList blanks = [] := by
  rw [← append_nil blanks, wordsList_blanks h]
  rfl

theorem wordsList_word {w rest : List Char} (hw : IsWord w) (hrest : StartsBlank rest) :
    wordsList (w ++ rest) = w :: wordsList rest := by
  have hempty : w.reverse.isEmpty = false := by simpa using hw.1
  rw [wordsList, wordsList_go_append hw.2, append_nil]
  cases rest with
  | nil => simp [wordsList, wordsList.go, hempty]
  | cons c rest => simp [wordsList, wordsList.go, hrest c rfl, hempty]

theorem word_induction {P : List Char → Prop}
    (blank : ∀ blanks, (∀ c ∈ blanks, isBlank c = true) → P blanks)
    (word : ∀ blanks w rest, (∀ c ∈ blanks, isBlank c = true) → IsWord w → StartsBlank rest →
      P rest → P (blanks ++ (w ++ rest))) (cs : List Char) : P cs := by
  have hread : ∀ cs blanks w, (∀ c ∈ blanks, isBlank c = true) → (∀ c ∈ w, isBlank c = false) →
      P (blanks ++ (w ++ cs)) := by
    intro cs
    induction cs with
    | nil =>
      intro blanks w hblanks hw
      by_cases hne : w = []
      · simpa [hne] using blank blanks hblanks
      · exact word blanks w [] hblanks ⟨hne, hw⟩ startsBlank_nil (blank [] (by simp))
    | cons c cs ih =>
      intro blanks w hblanks hw
      cases hc : isBlank c with
      | false => simpa using ih blanks (w ++ [c]) hblanks (by simpa [or_imp, forall_and, hc])
      | true =>
        by_cases hne : w = []
        · simpa [hne] using ih (blanks ++ [c]) [] (by simpa [or_imp, forall_and, hc]) (by simp)
        · refine word blanks w (c :: cs) hblanks ⟨hne, hw⟩ (startsBlank_cons hc cs) ?_
          exact ih [c] [] (by simpa using hc) (by simp)
  exact hread cs [] [] (by simp) (by simp)

theorem wordsList_append (x : List Char) {y : List Char} (hy : StartsBlank y) :
    wordsList (x ++ y) = wordsList x ++ wordsList y := by
  induction x using word_induction with
  | blank blanks h =>
    rw [wordsList_blanks h, wordsList_of_blank h]
    rfl
  | word blanks w rest hblanks hw hrest ih =>
    have hmore : StartsBlank (rest ++ y) := by
      cases rest with
      | nil => exact hy
      | cons c rest => exact hrest
    rw [append_assoc, append_assoc, wordsList_blanks hblanks, wordsList_blanks hblanks,
      wordsList_word hw hmore, wordsList_word hw hrest, ih, cons_append]

theorem words_of_isWord (h : IsWord w.toList) : words w = [w] := by
  have hlist := wordsList_word h startsBlank_nil
  rw [append_nil] at hlist
  rw [words, hlist, map_cons, String.ofList_toList]
  rfl

theorem isWord_of_mem_wordsList {v cs : List Char} (h : v ∈ wordsList cs) :
    IsWord v ∧ v <:+: cs := by
  induction cs using word_induction with
  | blank blanks hblanks =>
    rw [wordsList_of_blank hblanks] at h
    cases h
  | word blanks w rest hblanks hw hrest ih =>
    rw [wordsList_blanks hblanks, wordsList_word hw hrest] at h
    rcases mem_cons.1 h with rfl | h
    · exact ⟨hw, blanks, rest, by simp⟩
    · exact ⟨(ih h).1, List.IsInfix.trans (ih h).2 ⟨blanks ++ w, [], by simp⟩⟩

theorem isWord_of_mem_words {s : String} (h : w ∈ words s) :
    IsWord w.toList ∧ w.toList <:+: s.toList := by
  obtain ⟨cs, hcs, rfl⟩ := mem_map.1 h
  rw [String.toList_ofList]
  exact isWord_of_mem_wordsList hcs

theorem forall_of_mem_words {s : String} (h : w ∈ words s) :
    w ≠ "" ∧ ∀ c ∈ w.toList, isBlank c = false ∧ c ∈ s.toList := by
  obtain ⟨⟨hne, hword⟩, hinside⟩ := isWord_of_mem_words h
  refine ⟨?_, fun c hc => ⟨hword c hc, hinside.subset hc⟩⟩
  rintro rfl
  exact hne rfl

theorem words_join_eq_flatMap (l : List String) : words (join " " l) = l.flatMap words := by
  have hspace : " ".toList = [' '] := rfl
  have hblank : ∀ c ∈ [' '], isBlank c = true := by
    intro c hc
    rw [mem_singleton.1 hc]
    rfl
  have htail : ∀ ls : List String, StartsBlank (ls.flatMap fun s => [' '] ++ s.toList) := by
    intro ls
    cases ls with
    | nil => exact startsBlank_nil
    | cons s ls => exact startsBlank_cons (by decide) _
  have hlist : ∀ ls : List String,
      (wordsList (ls.flatMap fun s => [' '] ++ s.toList)).map String.ofList = ls.flatMap words := by
    intro ls
    induction ls with
    | nil => rfl
    | cons s ls ih =>
      rw [flatMap_cons, append_assoc, wordsList_blanks hblank,
        wordsList_append _ (htail ls), map_append, ih]
      rfl
  cases l with
  | nil => rfl
  | cons s ls =>
    rw [words, toList_join_eq_flatMap, hspace, wordsList_append _ (htail ls), map_append, hlist]
    rfl

theorem words_join (h : ∀ w ∈ ws, IsWord w.toList) : words (join " " ws) = ws := by
  rw [words_join_eq_flatMap]
  induction ws with
  | nil => rfl
  | cons w ws ih =>
    obtain ⟨hw, hws⟩ := forall_mem_cons.1 h
    rw [flatMap_cons, ih hws, words_of_isWord hw]
    rfl

theorem mem_toList_join {sep : String} (h : c ∈ (join sep ws).toList) :
    c ∈ sep.toList ∨ ∃ w ∈ ws, c ∈ w.toList := by
  cases ws with
  | nil => exact absurd h (by simp [join])
  | cons w ws =>
    rw [toList_join_eq_flatMap] at h
    simp only [mem_append, mem_flatMap] at h
    rcases h with h | ⟨v, hv, h | h⟩
    · exact .inr ⟨w, mem_cons_self, h⟩
    · exact .inl h
    · exact .inr ⟨v, mem_cons_of_mem w hv, h⟩

theorem mem_toList_join_of_mem (sep : String) (hw : w ∈ ws) (h : c ∈ w.toList) :
    c ∈ (join sep ws).toList := by
  cases ws with
  | nil => cases hw
  | cons v ws =>
    rw [toList_join_eq_flatMap, mem_append]
    rcases mem_cons.1 hw with rfl | hw
    · exact .inl h
    · exact .inr (mem_flatMap.2 ⟨w, hw, mem_append_right _ h⟩)

end CodeAtlas.Text

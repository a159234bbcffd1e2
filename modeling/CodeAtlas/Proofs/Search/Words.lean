import CodeAtlas.Proofs.Dict
import CodeAtlas.Proofs.Text.Words
import CodeAtlas.Search.Database
import Mathlib.Data.Nat.Bitwise

/-!
# Keywords

The words of an English question are keywords (`IsKeyword`): they are in lower
case, hold neither white space nor marks, carry meaning, and have the form under
which they are looked up. Keywords that are put as a question are its words
(`englishWords_join`), so taking the words of a question a second time changes
nothing.

This rests on two tables. No lower-case form is the upper-case form of another
letter, and no usual form is itself replaced or without meaning. Both say that
two sets are apart. The sets are written as the bits of two numbers (`bits`), so
that one comparison decides for the whole table.
-/

namespace CodeAtlas.Text

open List

variable {c : Char} {n : Nat}

/-! ### Sets of numbers -/

def bits : List Nat → Nat
  | [] => 0
  | n :: l => 2 ^ n ||| bits l

theorem testBit_bits {l : List Nat} : (bits l).testBit n = true ↔ n ∈ l := by
  induction l with
  | nil => simp [bits]
  | cons m l ih =>
    rw [bits, Nat.testBit_or, Bool.or_eq_true, ih, Nat.testBit_two_pow, decide_eq_true_eq,
      mem_cons, eq_comm]

theorem not_mem_of_bits {l l' : List Nat} (h : bits l &&& bits l' = 0) (hn : n ∈ l) : n ∉ l' := by
  intro hn'
  have hbit : (bits l &&& bits l').testBit n = true := by
    rw [Nat.testBit_and, testBit_bits.2 hn, testBit_bits.2 hn', Bool.and_self]
  rw [h, Nat.zero_testBit] at hbit
  cases hbit

/-! ### Lower case -/

def CaseRun.letters (r : CaseRun) : List Nat :=
  (range ((r.last - r.first) / r.stride + 1)).map (r.first + · * r.stride)

theorem CaseRun.mem_letters {r : CaseRun} (h : r.covers n = true) : n ∈ r.letters := by
  simp only [covers, Bool.and_eq_true, decide_eq_true_eq, beq_iff_eq] at h
  obtain ⟨⟨hfirst, hlast⟩, hstride⟩ := h
  refine mem_map.2 ⟨(n - r.first) / r.stride, mem_range.2 ?_, ?_⟩
  · exact Nat.lt_succ_of_le (Nat.div_le_div_right (Nat.sub_le_sub_right hlast r.first))
  · rw [Nat.div_mul_cancel (Nat.dvd_of_mod_eq_zero hstride)]
    exact Nat.add_sub_cancel' hfirst

def capitals : List Nat := 0x130 :: lowercaseRuns.flatMap CaseRun.letters

/-- What these letters are replaced by, and two characters without case: the first one, which stands
for a number that is no character, and the blank. -/
def lowered : List Nat :=
  [0, 0x20, 0x69, 0x307, 0x3c2, 0x3c3] ++
    lowercaseRuns.flatMap fun r => r.letters.map fun (n : Nat) => (n + r.shift).toNat

theorem bits_lowered_capitals : bits lowered &&& bits capitals = 0 := by
  decide +kernel

/-- A character that lower case keeps wherever it stands. -/
structure IsLower (c : Char) : Prop where
  not_dotted : c.toNat ≠ 0x130
  uncovered : ∀ run ∈ lowercaseRuns, run.covers c.toNat = false

theorem isLower_of_mem (h : c.toNat ∈ lowered) : IsLower c := by
  have hfree := not_mem_of_bits bits_lowered_capitals h
  rw [capitals, mem_cons, not_or] at hfree
  refine ⟨hfree.1, ?_⟩
  intro run hrun
  rw [Bool.eq_false_iff]
  intro hcovers
  exact hfree.2 (mem_flatMap.2 ⟨run, hrun, CaseRun.mem_letters hcovers⟩)

theorem isLower_ofNat (h : n ∈ lowered) : IsLower (Char.ofNat n) := by
  apply isLower_of_mem
  by_cases hvalid : n.isValidChar
  · rw [Char.ofNat, dif_pos hvalid]
    exact h
  · rw [Char.ofNat, dif_neg hvalid]
    exact mem_append_left _ mem_cons_self

theorem IsLower.ne_sigma (h : IsLower c) : c.toNat ≠ 0x3a3 := by
  intro hc
  obtain ⟨run, hrun, hcovers⟩ : ∃ run ∈ lowercaseRuns, run.covers 0x3a3 = true := by
    decide +kernel
  have hfree := h.uncovered run hrun
  rw [hc, hcovers] at hfree
  cases hfree

theorem lowerChar_eq_self (h : IsLower c) : lowerChar c = c := by
  have hnone : lowercaseRuns.find? (·.covers c.toNat) = none := by
    rw [find?_eq_none]
    intro run hrun
    rw [h.uncovered run hrun]
    exact Bool.false_ne_true
  rw [lowerChar, hnone]

theorem isLower_lowerChar (h : c.toNat ≠ 0x130) : IsLower (lowerChar c) := by
  cases hfind : lowercaseRuns.find? (·.covers c.toNat) with
  | none =>
    rw [lowerChar, hfind]
    refine ⟨h, ?_⟩
    intro run hrun
    exact Bool.eq_false_iff.2 (find?_eq_none.1 hfind run hrun)
  | some run =>
    rw [lowerChar, hfind]
    apply isLower_ofNat
    have hletter : c.toNat ∈ run.letters := by
      apply CaseRun.mem_letters
      exact find?_some (p := fun run : CaseRun => run.covers c.toNat) hfind
    exact mem_append_right _ (mem_flatMap.2 ⟨run, mem_of_find?_eq_some hfind,
      mem_map_of_mem hletter⟩)

theorem isLower_of_mem_lowerFrom {before cs : List Char} (h : c ∈ lowerFrom before cs) :
    IsLower c := by
  have hspecial : ∀ n ∈ [0, 0x20, 0x69, 0x307, 0x3c2, 0x3c3], IsLower (Char.ofNat n) := fun n hn =>
    isLower_ofNat (mem_append_left _ hn)
  induction cs generalizing before with
  | nil => cases h
  | cons d cs ih =>
    rw [lowerFrom, mem_append] at h
    rcases h with h | h
    · by_cases hascii : d.toNat < 0x80
      · rw [if_pos hascii, mem_singleton] at h
        rw [h]
        exact isLower_lowerChar (by omega)
      · rw [if_neg hascii] at h
        by_cases hdotted : d.toNat = 0x130
        · rw [if_pos (beq_iff_eq.2 hdotted)] at h
          rcases mem_pair.1 h with rfl | rfl
          · exact hspecial 0x69 (by simp)
          · exact hspecial 0x307 (by simp)
        · rw [if_neg (mt beq_iff_eq.1 hdotted)] at h
          by_cases hsigma : d.toNat = 0x3a3
          · rw [if_pos (beq_iff_eq.2 hsigma), mem_singleton] at h
            rw [h]
            split
            · exact hspecial 0x3c2 (by simp)
            · exact hspecial 0x3c3 (by simp)
          · rw [if_neg (mt beq_iff_eq.1 hsigma), mem_singleton] at h
            rw [h]
            exact isLower_lowerChar hdotted
    · exact ih h

theorem lowerFrom_eq_self {cs : List Char} (h : ∀ c ∈ cs, IsLower c) (before : List Char) :
    lowerFrom before cs = cs := by
  induction cs generalizing before with
  | nil => rfl
  | cons c cs ih =>
    obtain ⟨hc, hcs⟩ := forall_mem_cons.1 h
    rw [lowerFrom, ih hcs, lowerChar_eq_self hc, if_neg (mt beq_iff_eq.1 hc.not_dotted),
      if_neg (mt beq_iff_eq.1 hc.ne_sigma), ite_self]
    rfl

theorem lower_eq_self {s : String} (h : ∀ c ∈ s.toList, IsLower c) : lower s = s := by
  rw [lower, lowerFrom_eq_self h, String.ofList_toList]

/-! ### Bytes -/

theorem exists_byte_of_mem {s : String} (hbytes : ∀ b ∈ s.toByteArray.data.toList, b.toNat < 128)
    (hc : c ∈ s.toList) : ∃ b ∈ s.toByteArray.data.toList, b.toNat = c.toNat := by
  have hencode : s.toByteArray.data.toList = s.toList.flatMap String.utf8EncodeChar := by
    rw [← String.utf8Encode_toList, utf8Encode, data_toByteArray]
  have hpart : ∀ b ∈ String.utf8EncodeChar c, b ∈ s.toByteArray.data.toList := by
    intro b hb
    rw [hencode]
    exact mem_flatMap.2 ⟨c, hc, hb⟩
  have hval : c.val.toNat = c.toNat := rfl
  have hofNat : ∀ n < 256, (UInt8.ofNat n).toNat = n := fun n hn => UInt8.toNat_ofNat_of_lt hn
  by_cases hlow : c.toNat ≤ 127
  · refine ⟨UInt8.ofNat c.toNat, hpart _ ?_, hofNat _ (by omega)⟩
    simp [String.utf8EncodeChar, hval, hlow]
  · -- the last byte of a longer form is not below 128
    have hlast : UInt8.ofNat (c.toNat % 64 + 128) ∈ String.utf8EncodeChar c := by
      simp only [String.utf8EncodeChar, hval, if_neg hlow]
      split
      · simp
      · split <;> simp
    have hbyte := hbytes _ (hpart _ hlast)
    rw [hofNat _ (by omega)] at hbyte
    omega

end CodeAtlas.Text

namespace CodeAtlas.Search

open Text List

/-- A word as it comes out of an English question. -/
structure IsKeyword (w : String) : Prop where
  word : IsWord w.toList
  lower : ∀ c ∈ w.toList, IsLower c
  unmarked : ∀ c ∈ w.toList, c ∉ englishMarks.toList
  meaningful : w ∉ englishStopWords
  usual : synonyms.get? w = none

/-! ### The usual forms -/

/-- A number that depends on the letters of a word. It is the same for some pairs of words, but not
for those that are compared below. -/
def fingerprint (w : String) : Nat :=
  w.toByteArray.data.toList.foldl (fun n byte => (n * 256 + byte.toNat) % 65521) 0

theorem bits_usual_replaced :
    bits (synonyms.values.map fingerprint) &&&
      bits ((englishStopWords ++ synonyms.keys).map fingerprint) = 0 := by
  decide +kernel

theorem not_mem_of_mem_values {w : String} (h : w ∈ synonyms.values) :
    w ∉ englishStopWords ++ synonyms.keys := by
  intro hw
  exact not_mem_of_bits bits_usual_replaced (mem_map_of_mem h) (mem_map_of_mem hw)

theorem letters_of_mem_values {w : String} (h : w ∈ synonyms.values) :
    w ≠ "" ∧ ∀ c ∈ w.toList, c.toNat ∈ range' 97 26 := by
  have hall : synonyms.values.all (fun w =>
      w != "" && w.toByteArray.data.toList.all fun b => 97 ≤ b.toNat && b.toNat < 123) = true := by
    decide +kernel
  have hw := all_eq_true.1 hall w h
  simp only [Bool.and_eq_true, bne_iff_ne, all_eq_true, decide_eq_true_eq] at hw
  refine ⟨hw.1, ?_⟩
  intro c hc
  obtain ⟨b, hb, hbc⟩ := exists_byte_of_mem (fun b hb => by have := (hw.2 b hb).2; omega) hc
  rw [mem_range'_1, ← hbc]
  exact hw.2 b hb

/-- A usual form is a keyword: it is written in small letters and is not replaced in turn. -/
theorem isKeyword_of_mem_values {w : String} (h : w ∈ synonyms.values) : IsKeyword w := by
  obtain ⟨hne, hrange⟩ := letters_of_mem_values h
  have hapart := not_mem_of_mem_values h
  rw [mem_append, not_or] at hapart
  have hsmall : ∀ n ∈ range' 97 26, n ∈ lowered ∧
      isBlank (Char.ofNat n) = false ∧ Char.ofNat n ∉ englishMarks.toList := by
    decide +kernel
  have hletter : ∀ c ∈ w.toList, IsLower c ∧ isBlank c = false ∧ c ∉ englishMarks.toList := by
    intro c hc
    obtain ⟨hlow, hfree⟩ := hsmall c.toNat (hrange c hc)
    rw [Char.ofNat_toNat] at hfree
    exact ⟨isLower_of_mem hlow, hfree⟩
  refine ⟨⟨by simpa using hne, fun c hc => (hletter c hc).2.1⟩, fun c hc => (hletter c hc).1,
    fun c hc => (hletter c hc).2.2, hapart.1, ?_⟩
  rw [Option.eq_none_iff_forall_ne_some]
  intro v hv
  exact hapart.2 (Dict.mem_keys_of_get? hv)

/-! ### Taking the words of a question -/

theorem mem_toList_blankOut {chars s : String} {c : Char} (h : c ∈ (blankOut chars s).toList) :
    c = ' ' ∨ c ∈ s.toList ∧ c ∉ chars.toList := by
  rw [blankOut, String.toList_map] at h
  obtain ⟨d, hd, hc⟩ := mem_map.1 h
  by_cases hmark : d ∈ chars.toList
  · rw [if_pos (contains_iff_mem.2 hmark)] at hc
    exact .inl hc.symm
  · rw [if_neg (mt contains_iff_mem.1 hmark)] at hc
    rw [← hc]
    exact .inr ⟨hd, hmark⟩

theorem blankOut_eq_self {chars s : String} (h : ∀ c ∈ s.toList, c ∉ chars.toList) :
    blankOut chars s = s := by
  rw [blankOut, ← String.toList_inj, String.toList_map]
  conv_rhs => rw [← map_id s.toList]
  apply map_congr_left
  intro c hc
  exact if_neg (mt contains_iff_mem.1 (h c hc))

theorem isKeyword_of_mem_englishWords {question w : String} (h : w ∈ englishWords question) :
    IsKeyword w := by
  obtain ⟨v, hv, rfl⟩ := mem_map.1 h
  obtain ⟨hwords, hmeaning⟩ := mem_filter.1 hv
  cases hget : synonyms.get? v with
  | some form =>
    rw [translate, hget]
    exact isKeyword_of_mem_values (mem_map_of_mem (Dict.mem_of_get? hget))
  | none =>
    rw [translate, hget]
    obtain ⟨hne, hall⟩ := forall_of_mem_words hwords
    have hsource : ∀ c ∈ v.toList, c ∈ (lower question).toList ∧ c ∉ englishMarks.toList := by
      intro c hc
      rcases mem_toList_blankOut (hall c hc).2 with rfl | hc
      · exact absurd (hall ' ' hc).1 (by decide)
      · exact hc
    refine ⟨⟨by simpa using hne, fun c hc => (hall c hc).1⟩, ?_, fun c hc => (hsource c hc).2,
      ?_, hget⟩
    · intro c hc
      have hlow := (hsource c hc).1
      rw [lower, String.toList_ofList] at hlow
      exact isLower_of_mem_lowerFrom hlow
    · simp only [Bool.and_eq_true, Bool.not_eq_true', contains_eq_mem,
        decide_eq_false_iff_not] at hmeaning
      exact hmeaning.2

theorem englishWords_join {ws : List String} (h : ∀ w ∈ ws, IsKeyword w) :
    englishWords (join " " ws) = ws := by
  have hspace : ∀ c ∈ " ".toList, IsLower c ∧ c ∉ englishMarks.toList := by
    intro c hc
    rw [show " ".toList = [' '] from rfl, mem_singleton] at hc
    rw [hc]
    exact ⟨isLower_of_mem (mem_append_left _ (by decide)), by decide +kernel⟩
  have hletter : ∀ c ∈ (join " " ws).toList, IsLower c ∧ c ∉ englishMarks.toList := by
    intro c hc
    rcases mem_toList_join hc with hc | ⟨w, hw, hc⟩
    · exact hspace c hc
    · exact ⟨(h w hw).lower c hc, (h w hw).unmarked c hc⟩
  have hmeaningful : meaningful englishStopWords ws = ws := by
    rw [meaningful, filter_eq_self]
    intro w hw
    obtain ⟨c, hc⟩ := exists_mem_of_ne_nil _ (h w hw).word.1
    rw [isEmpty_strip hc ((h w hw).word.2 c hc)]
    simpa using (h w hw).meaningful
  have husual : ws.map (translate synonyms) = ws := by
    conv_rhs => rw [← map_id ws]
    apply map_congr_left
    intro w hw
    rw [translate, (h w hw).usual]
    rfl
  rw [englishWords, lower_eq_self fun c hc => (hletter c hc).1,
    blankOut_eq_self fun c hc => (hletter c hc).2, words_join fun w hw => (h w hw).word,
    hmeaningful, husual]

/-- Taking the words of an English question gives keywords, and taking the words of these again
gives the same. -/
theorem questionWords_join_questionWords (question : String) (session : Session) :
    ∃ keywords, (questionWords question "en").run.run session = (.ok keywords, session) ∧
      (∀ w ∈ keywords, IsKeyword w) ∧
      (questionWords (join " " keywords) "en").run.run session = (.ok keywords, session) := by
  have hrun : ∀ q, (questionWords q "en").run.run session = (.ok (englishWords q), session) :=
    fun q => rfl
  refine ⟨englishWords question, hrun question, fun w hw => isKeyword_of_mem_englishWords hw, ?_⟩
  rw [hrun, englishWords_join fun w hw => isKeyword_of_mem_englishWords hw]

end CodeAtlas.Search

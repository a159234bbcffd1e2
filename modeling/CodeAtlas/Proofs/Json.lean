import CodeAtlas.Json.Parser
import CodeAtlas.Json.Printer
import CodeAtlas.Proofs.Dict
import CodeAtlas.Proofs.Text

/-!
# Documents read back

`Spells text j` says that reading at `text` gives `j` and stops right behind it,
whatever follows. Each way to write a document keeps it: a text in quotes, with
its characters escaped or not (`spells_encode`), a list between brackets and an
object between braces, with any blanks between the parts. So a document of
texts is read back from what is written of it, in every layout
(`parse_render_textual`). The fields of an object need distinct names, because reading
keeps one field of a name only.
-/

namespace CodeAtlas.Json

open Text List

variable {c : Char} {i : Input} {gap' gap gap'' : List Char} {j v : Json} {text : Json → List Char}
  {fuel pos : Nat} {rest : List Char} {field : String × Json} {fields : List (String × Json)}

theorem setField_eq_set (fields : List (String × Json)) (key : String) (value : Json) :
    setField fields key value = Dict.set fields key value := by
  induction fields with
  | nil => rfl
  | cons field rest ih =>
    obtain ⟨k, v⟩ := field
    rw [setField, Dict.set, ih]

/-! ### Texts -/

theorem hexValue?_hexDigit : ∀ d < 16, hexValue? (hexDigit d) = some d := by decide

theorem hexDigits_four (n : Nat) : hexDigits 4 n =
    [hexDigit (n / 16 / 16 / 16 % 16), hexDigit (n / 16 / 16 % 16),
      hexDigit (n / 16 % 16), hexDigit (n % 16)] := rfl

theorem hex4?_hexDigits {n : Nat} (h : n < 0x10000) (rest : List Char) :
    hex4? (hexDigits 4 n ++ rest) = some n := by
  have hdigit : ∀ m, hexValue? (hexDigit (m % 16)) = some (m % 16) := fun m =>
    hexValue?_hexDigit _ (Nat.mod_lt m (by decide))
  simp [hex4?, hexDigits_four, hdigit]
  omega

section

variable (start fuel : Nat) (acc rest : List Char) (pos : Nat)

theorem readText_plain (hquote : c ≠ '"') (hslash : c ≠ '\\') (hc : 0x20 ≤ c.toNat) :
    readText start (fuel + 1) acc ⟨c :: rest, pos⟩ =
      readText start fuel (c :: acc) ⟨rest, pos + 1⟩ := by
  rw [readText]
  dsimp only
  split
  · next h => cases h
  · next h => exact absurd (cons.inj h).1 hquote
  · next h => exact absurd (cons.inj h).1 hslash
  · next h => exact absurd (cons.inj h).1 hslash
  · next h => exact absurd (cons.inj h).1 hslash
  · next h =>
      obtain ⟨rfl, rfl⟩ := cons.inj h
      rw [if_neg (by omega)]
      rfl

theorem readText_escape {e k : Char} (he : escapeOf? e = some k) :
    readText start (fuel + 1) acc ⟨'\\' :: e :: rest, pos⟩ =
      readText start fuel (k :: acc) ⟨rest, pos + 2⟩ := by
  unfold escapeOf? at he
  split at he
  case h_9 => cases he
  all_goals
    cases he
    rfl

theorem readText_numbered {n : Nat} (hn : n < 0xd800 ∨ 0xe000 ≤ n) (hn' : n < 0x10000) :
    readText start (fuel + 1) acc ⟨'\\' :: 'u' :: (hexDigits 4 n ++ rest), pos⟩ =
      readText start fuel (Char.ofNat n :: acc) ⟨rest, pos + 6⟩ := by
  have hfirst : ¬ (0xd800 ≤ n ∧ n < 0xdc00) := by omega
  have hboth : ¬ (0xd800 ≤ n ∧ n < 0xe000) := by omega
  rw [readText]
  simp only [hex4?_hexDigits hn', Bool.and_eq_true, decide_eq_true_eq, hfirst, hboth, if_false]
  rfl

theorem readText_pair {n m : Nat} (hn : 0xd800 ≤ n ∧ n < 0xdc00) (hm : 0xdc00 ≤ m ∧ m < 0xe000) :
    readText start (fuel + 1) acc ⟨'\\' :: 'u' ::
        (hexDigits 4 n ++ '\\' :: 'u' :: (hexDigits 4 m ++ rest)), pos⟩ =
      readText start fuel (Char.ofNat (0x10000 + (n - 0xd800) * 0x400 + (m - 0xdc00)) :: acc)
        ⟨rest, pos + 12⟩ := by
  have hdrop : (hexDigits 4 n ++ '\\' :: 'u' :: (hexDigits 4 m ++ rest)).drop 4 =
      '\\' :: 'u' :: (hexDigits 4 m ++ rest) := rfl
  have hn' : n < 0x10000 := by omega
  have hm' : m < 0x10000 := by omega
  rw [readText]
  simp only [hex4?_hexDigits hn', hex4?_hexDigits hm', hdrop, Bool.and_eq_true, decide_eq_true_eq,
    hn, hm, and_self, if_true]
  rfl

theorem escapeOf?_escapeLetter {e : Char} (h : escapeLetter? c = some e) :
    escapeOf? e = some c := by
  unfold escapeLetter? at h
  split at h
  case h_8 => cases h
  all_goals
    cases h
    rfl

theorem ne_of_escapeLetter?_eq_none (h : escapeLetter? c = none) :
    c ≠ '"' ∧ c ≠ '\\' ∧ c ≠ '\r' := by
  refine ⟨?_, ?_, ?_⟩ <;>
  · rintro rfl
    cases h

theorem readText_encodeChar (ascii : Bool) (c : Char) :
    ∃ pos', readText start (fuel + 1) acc ⟨encodeChar ascii c ++ rest, pos⟩ =
      readText start fuel (c :: acc) ⟨rest, pos'⟩ := by
  have hvalid : c.toNat < 0xd800 ∨ 0xdfff < c.toNat ∧ c.toNat < 0x110000 := c.valid
  have hc : Char.ofNat c.toNat = c := Char.ofNat_toNat c
  unfold encodeChar
  cases hescape : escapeLetter? c with
  | some e => exact ⟨_, readText_escape _ _ _ _ _ (escapeOf?_escapeLetter hescape)⟩
  | none =>
    obtain ⟨hquote, hslash, -⟩ := ne_of_escapeLetter?_eq_none hescape
    dsimp only
    split
    · next h =>
        simp only [Bool.or_eq_true, Bool.and_eq_true, decide_eq_true_eq] at h
        exact ⟨_, hc ▸ readText_numbered start fuel acc rest pos (by omega) (by omega)⟩
    split
    · next h =>
        simp only [Bool.and_eq_true, decide_eq_true_eq] at h
        have hsum : 0x10000 + (0xd800 + (c.toNat - 0x10000) / 0x400 - 0xd800) * 0x400 +
            (0xdc00 + (c.toNat - 0x10000) % 0x400 - 0xdc00) = c.toNat := by omega
        refine ⟨pos + 12, ?_⟩
        rw [append_assoc]
        refine (readText_pair start fuel acc rest pos (by omega) (by omega)).trans ?_
        rw [hsum, hc]
    · next hlow _ =>
        refine ⟨_, readText_plain start fuel acc rest pos hquote hslash ?_⟩
        simp only [Bool.or_eq_true, decide_eq_true_eq, not_or] at hlow
        omega

end

theorem encodeChar_ne_nil (ascii : Bool) (c : Char) : encodeChar ascii c ≠ [] := by
  unfold encodeChar
  cases escapeLetter? c with
  | some e => simp
  | none =>
    dsimp only
    split
    · simp
    split <;> simp

theorem hexDigit_ne_return : ∀ d < 16, hexDigit d ≠ '\r' := by decide

theorem return_notMem_encodeChar (ascii : Bool) (c : Char) : '\r' ∉ encodeChar ascii c := by
  have hdigit : ∀ n, ¬ '\r' = hexDigit (n % 16) := fun n h =>
    hexDigit_ne_return _ (Nat.mod_lt n (by decide)) h.symm
  unfold encodeChar
  cases hescape : escapeLetter? c with
  | some e =>
    have he : e ≠ '\r' := by
      rintro rfl
      cases escapeOf?_escapeLetter hescape
    simpa using he.symm
  | none =>
    have hc : c ≠ '\r' := (ne_of_escapeLetter?_eq_none hescape).2.2
    dsimp only
    split
    · simp [hexDigits_four, hdigit]
    split
    · simp [hexDigits_four, hdigit]
    · simpa using hc.symm

theorem readText_encode (ascii : Bool) (start : Nat) (rest : List Char) (cs : List Char) :
    ∀ (fuel : Nat) (acc : List Char) (pos : Nat), cs.length < fuel →
      ∃ pos', readText start fuel acc
          ⟨cs.flatMap (encodeChar ascii) ++ '"' :: rest, pos⟩ =
        .ok (String.ofList (acc.reverse ++ cs), ⟨rest, pos'⟩) := by
  induction cs with
  | nil =>
    intro fuel acc pos hfuel
    obtain ⟨fuel, rfl⟩ := Nat.exists_eq_add_one_of_ne_zero (Nat.ne_of_gt hfuel)
    rw [append_nil]
    exact ⟨pos + 1, rfl⟩
  | cons c cs ih =>
    intro fuel acc pos hfuel
    rw [length_cons] at hfuel
    obtain ⟨fuel, rfl⟩ := Nat.exists_eq_add_one_of_ne_zero (Nat.ne_of_gt (Nat.zero_lt_of_lt hfuel))
    obtain ⟨pos₁, hchar⟩ := readText_encodeChar start fuel acc
      (cs.flatMap (encodeChar ascii) ++ '"' :: rest) pos ascii c
    obtain ⟨pos', hrest⟩ := ih fuel (c :: acc) pos₁ (by omega)
    refine ⟨pos', ?_⟩
    rw [flatMap_cons, append_assoc, hchar, hrest]
    simp

/-! ### Documents -/

/-- Reading at the text gives the document and stops right behind the text. -/
structure Spells (text : List Char) (j : Json) : Prop where
  opens : ∃ c rest, text = c :: rest ∧ (c = '"' ∨ c = '[' ∨ c = '\x7b')
  reads : ∀ (fuel : Nat) (rest : List Char) (pos : Nat), text.length ≤ fuel →
    ∃ pos', readValue fuel ⟨text ++ rest, pos⟩ = .ok (j, ⟨rest, pos'⟩)
  no_return : '\r' ∉ text

theorem length_le_length_flatMap (ascii : Bool) (cs : List Char) :
    cs.length ≤ (cs.flatMap (encodeChar ascii)).length := by
  induction cs with
  | nil => exact Nat.le_refl 0
  | cons c cs ih =>
    have hc : 0 < (encodeChar ascii c).length := length_pos_of_ne_nil (encodeChar_ne_nil ascii c)
    rw [flatMap_cons, length_append, length_cons]
    omega

theorem toList_encode (ascii : Bool) (s : String) : (encode ascii s).toList =
    '"' :: (s.toList.flatMap (encodeChar ascii) ++ ['"']) := by
  simp [encode]

theorem readText_quoted (ascii : Bool) (s : String) (rest : List Char) (pos start : Nat) :
    ∃ pos', readText start (((encode ascii s).toList ++ rest).length + 1) []
        (Input.advance ⟨(encode ascii s).toList ++ rest, pos⟩ 1) =
      .ok (s, ⟨rest, pos'⟩) := by
  have htext : (encode ascii s).toList ++ rest =
      '"' :: (s.toList.flatMap (encodeChar ascii) ++ '"' :: rest) := by
    simp [toList_encode]
  have hlength := length_le_length_flatMap ascii s.toList
  obtain ⟨pos', hread⟩ := readText_encode ascii start rest s.toList
    (((encode ascii s).toList ++ rest).length + 1) [] (pos + 1) (by
      rw [htext, length_cons, length_append]
      omega)
  refine ⟨pos', ?_⟩
  rw [htext] at hread ⊢
  simpa [Input.advance] using hread

theorem spells_encode (ascii : Bool) (s : String) : Spells (encode ascii s).toList (.str s) := by
  refine ⟨⟨_, _, toList_encode ascii s, .inl rfl⟩, ?_, ?_⟩
  · intro fuel rest pos hfuel
    have hpos : fuel ≠ 0 := by
      rintro rfl
      simp [toList_encode] at hfuel
    obtain ⟨fuel, rfl⟩ := Nat.exists_eq_add_one_of_ne_zero hpos
    obtain ⟨pos', hread⟩ := readText_quoted ascii s rest pos pos
    refine ⟨pos', ?_⟩
    rw [toList_encode, cons_append] at hread ⊢
    rw [readValue]
    dsimp only
    rw [hread]
    rfl
  · simp [toList_encode, return_notMem_encodeChar]

/-! ### Blanks -/

/-- Blanks between the parts of a document, none of them a carriage return. -/
def IsGap (gap : List Char) : Prop := ∀ c ∈ gap, c = ' ' ∨ c = '\n'

theorem skipGaps_append (hgap : IsGap gap) (hc : isGap c = false) (rest : List Char) (pos : Nat) :
    Input.skipGaps ⟨gap ++ c :: rest, pos⟩ = ⟨c :: rest, pos + gap.length⟩ := by
  have htake : (gap ++ c :: rest).takeWhile isGap = gap := by
    rw [takeWhile_append_of_pos fun x hx => by rcases hgap x hx with rfl | rfl <;> rfl]
    simp [hc]
  simp [Input.skipGaps, htake]

theorem skipGaps_of_not_gap (hc : isGap c = false) (rest : List Char) (pos : Nat) :
    Input.skipGaps ⟨c :: rest, pos⟩ = ⟨c :: rest, pos⟩ := by
  have hnil : IsGap [] := by simp [IsGap]
  exact skipGaps_append hnil hc rest pos

theorem Spells.skipGaps {text : List Char} (h : Spells text j) (hgap : IsGap gap)
    (rest : List Char) (pos : Nat) :
    Input.skipGaps ⟨gap ++ (text ++ rest), pos⟩ = ⟨text ++ rest, pos + gap.length⟩ := by
  obtain ⟨c, tail, rfl, hc⟩ := h.opens
  have hnot : isGap c = false := by rcases hc with rfl | rfl | rfl <;> rfl
  exact skipGaps_append hgap hnot _ pos

/-! ### Lists -/

def further (gap : List Char) (texts : List (List Char)) : List Char :=
  texts.flatMap fun text => ',' :: (gap ++ text)

theorem further_cons (gap text : List Char) (texts : List (List Char)) :
    further gap (text :: texts) = ',' :: (gap ++ (text ++ further gap texts)) := by
  simp [further]

theorem return_notMem_gap (h : IsGap gap) : '\r' ∉ gap := by
  intro hmem
  rcases h '\r' hmem with h | h <;> cases h

theorem return_notMem_further (hgap : IsGap gap) {texts : List (List Char)}
    (h : ∀ text ∈ texts, '\r' ∉ text) : '\r' ∉ further gap texts := by
  simp only [further, mem_flatMap, mem_cons, mem_append, not_exists, not_and, not_or]
  exact fun text htext => ⟨by decide, return_notMem_gap hgap, h text htext⟩

theorem readItems_of_end (hgap : IsGap gap)
    (h : readValue fuel i = .ok (j, ⟨gap ++ ']' :: rest, pos⟩)) (acc : List Json) :
    readItems (fuel + 1) acc i = .ok (.arr (acc.reverse ++ [j]), ⟨rest, pos + gap.length + 1⟩) := by
  rw [readItems, h]
  dsimp only [bind, Except.bind]
  rw [skipGaps_append hgap rfl, ← reverse_cons]
  rfl

theorem readItems_of_comma (h : readValue fuel i = .ok (j, ⟨',' :: rest, pos⟩)) (acc : List Json) :
    readItems (fuel + 1) acc i = readItems fuel (j :: acc) (Input.skipGaps ⟨rest, pos + 1⟩) := by
  rw [readItems, h]
  dsimp only [bind, Except.bind]
  rw [skipGaps_of_not_gap rfl]
  rfl

theorem readItems_spells (hgap : IsGap gap) (hgap' : IsGap gap') {items : List Json}
    (hitems : ∀ j ∈ items, Spells (text j) j) (rest : List Char) (hj : Spells (text j) j)
    (fuel : Nat) (acc : List Json) (pos : Nat)
    (hfuel : (text j ++ further gap (items.map text)).length ≤ fuel) :
    ∃ pos', readItems (fuel + 1) acc
        ⟨text j ++ (further gap (items.map text) ++ (gap' ++ ']' :: rest)), pos⟩ =
      .ok (.arr (acc.reverse ++ j :: items), ⟨rest, pos'⟩) := by
  induction items generalizing j fuel acc pos with
  | nil =>
    rw [length_append] at hfuel
    obtain ⟨pos₁, hread⟩ := hj.reads fuel (gap' ++ ']' :: rest) pos (by omega)
    exact ⟨_, readItems_of_end hgap' hread acc⟩
  | cons j₂ items ih =>
    rw [forall_mem_cons] at hitems
    simp only [map_cons, further_cons, length_append, length_cons] at hfuel
    obtain ⟨fuel, rfl⟩ := Nat.exists_eq_add_one_of_ne_zero (show fuel ≠ 0 by omega)
    obtain ⟨pos₁, hread⟩ := hj.reads (fuel + 1) (',' :: (gap ++ (text j₂ ++
      (further gap (items.map text) ++ (gap' ++ ']' :: rest))))) pos (by omega)
    obtain ⟨pos', hrest⟩ := ih hitems.2 hitems.1 fuel (j :: acc) (pos₁ + 1 + gap.length)
      (by rw [length_append]; omega)
    refine ⟨pos', ?_⟩
    simp only [map_cons, further_cons, cons_append, append_assoc]
    rw [readItems_of_comma hread, hitems.1.skipGaps hgap, hrest]
    simp

theorem readValue_list {pos' : Nat} {cs tail : List Char}
    (h : Input.skipGaps ⟨cs, pos + 1⟩ = ⟨c :: tail, pos'⟩) (hc : c = '"' ∨ c = '[' ∨ c = '\x7b') :
    readValue (fuel + 1) ⟨'[' :: cs, pos⟩ = readItems fuel [] ⟨c :: tail, pos'⟩ := by
  rw [readValue]
  simp only [Input.advance, drop_succ_cons, drop_zero, h]
  rcases hc with rfl | rfl | rfl <;> rfl

theorem spells_arr (hgap : IsGap gap) (hgap' : IsGap gap') (hgap'' : IsGap gap'')
    {items : List Json} (h : ∀ j' ∈ j :: items, Spells (text j') j') :
    Spells ('[' :: (gap ++ (text j ++ (further gap' (items.map text) ++ (gap'' ++ [']'])))))
      (.arr (j :: items)) := by
  obtain ⟨hj, hitems⟩ := forall_mem_cons.1 h
  refine ⟨⟨_, _, rfl, .inr (.inl rfl)⟩, ?_, ?_⟩
  · intro fuel rest pos hfuel
    simp only [length_cons, length_append, length_nil] at hfuel
    obtain ⟨fuel, rfl⟩ := Nat.exists_eq_add_of_le' (show 2 ≤ fuel by omega)
    obtain ⟨pos', hread⟩ := readItems_spells hgap' hgap'' hitems rest hj fuel []
      (pos + 1 + gap.length) (by rw [length_append]; omega)
    refine ⟨pos', ?_⟩
    have hskip :=
      hj.skipGaps hgap (further gap' (items.map text) ++ (gap'' ++ ']' :: rest)) (pos + 1)
    simp only [cons_append, append_assoc, nil_append]
    obtain ⟨c, tail, hc, hopen⟩ := hj.opens
    rw [hc, cons_append] at hskip hread ⊢
    rw [readValue_list hskip hopen, hread]
    rfl
  · have hfurther : '\r' ∉ further gap' (items.map text) := by
      refine return_notMem_further hgap' fun t ht => ?_
      obtain ⟨j', hj', rfl⟩ := mem_map.1 ht
      exact (hitems j' hj').no_return
    simp [return_notMem_gap, hfurther, hgap, hgap'', hj.no_return]

/-! ### Objects -/

def fieldText (ascii : Bool) (text : Json → List Char) (field : String × Json) : List Char :=
  (encode ascii field.1).toList ++ ':' :: ' ' :: text field.2

theorem return_notMem_fieldText (ascii : Bool) (h : Spells (text field.2) field.2) :
    '\r' ∉ fieldText ascii text field := by
  simp [fieldText, (spells_encode ascii field.1).no_return, h.no_return]

theorem readName_encode (ascii : Bool) (k : String) {text : List Char} (h : Spells text v)
    (rest : List Char) (pos : Nat) :
    ∃ pos', readName ⟨(encode ascii k).toList ++ ':' :: ' ' :: (text ++ rest), pos⟩ =
      .ok (k, ⟨text ++ rest, pos'⟩) := by
  have hblank : IsGap [' '] := by simp [IsGap]
  obtain ⟨pos₁, hname⟩ := readText_quoted ascii k (':' :: ' ' :: (text ++ rest)) pos pos
  have hskip := h.skipGaps hblank rest (pos₁ + 1)
  refine ⟨pos₁ + 1 + 1, ?_⟩
  rw [toList_encode, cons_append] at hname ⊢
  rw [readName]
  dsimp only
  rw [hname]
  dsimp only [bind, Except.bind]
  rw [skipGaps_of_not_gap rfl]
  exact congrArg (fun i => Except.ok (k, i)) hskip

theorem readFields_of_end {i₁ : Input} {k : String} (hgap : IsGap gap)
    (hname : readName i = .ok (k, i₁))
    (hvalue : readValue fuel i₁ = .ok (v, ⟨gap ++ '\x7d' :: rest, pos⟩))
    (acc : List (String × Json)) : readFields (fuel + 1) acc i =
      .ok (.obj (setField acc k v), ⟨rest, pos + gap.length + 1⟩) := by
  rw [readFields, hname]
  dsimp only [bind, Except.bind]
  rw [hvalue]
  dsimp only
  rw [skipGaps_append hgap rfl]
  rfl

theorem readFields_of_comma {i₁ : Input} {k : String} (hname : readName i = .ok (k, i₁))
    (hvalue : readValue fuel i₁ = .ok (v, ⟨',' :: rest, pos⟩)) (acc : List (String × Json)) :
    readFields (fuel + 1) acc i =
      readFields fuel (setField acc k v) (Input.skipGaps ⟨rest, pos + 1⟩) := by
  rw [readFields, hname]
  dsimp only [bind, Except.bind]
  rw [hvalue]
  dsimp only
  rw [skipGaps_of_not_gap rfl]
  rfl

theorem setField_of_nodup {acc : List (String × Json)}
    (h : (Dict.keys (acc ++ field :: fields)).Nodup) :
    setField acc field.1 field.2 = acc ++ [field] := by
  rw [setField_eq_set, Dict.set_of_get?_eq_none (Dict.get?_of_nodup_append h)]

theorem readFields_spells (ascii : Bool) (hgap : IsGap gap) (hgap' : IsGap gap')
    (hfields : ∀ f ∈ fields, Spells (text f.2) f.2) (rest : List Char)
    (hfield : Spells (text field.2) field.2) (fuel : Nat) (acc : List (String × Json)) (pos : Nat)
    (hkeys : (Dict.keys (acc ++ field :: fields)).Nodup)
    (hfuel : (fieldText ascii text field ++
      further gap (fields.map (fieldText ascii text))).length ≤ fuel) :
    ∃ pos', readFields (fuel + 1) acc ⟨fieldText ascii text field ++
        (further gap (fields.map (fieldText ascii text)) ++ (gap' ++ '\x7d' :: rest)), pos⟩ =
      .ok (.obj (acc ++ field :: fields), ⟨rest, pos'⟩) := by
  have hset := setField_of_nodup hkeys
  induction fields generalizing field fuel acc pos with
  | nil =>
    simp only [fieldText, length_append, length_cons] at hfuel
    obtain ⟨pos₁, hname⟩ := readName_encode ascii field.1 hfield (gap' ++ '\x7d' :: rest) pos
    obtain ⟨pos₂, hvalue⟩ := hfield.reads fuel (gap' ++ '\x7d' :: rest) pos₁ (by omega)
    refine ⟨pos₂ + gap'.length + 1, ?_⟩
    have hend := readFields_of_end hgap' hname hvalue acc
    rw [hset] at hend
    simpa [fieldText, further] using hend
  | cons field₂ fields ih =>
    rw [forall_mem_cons] at hfields
    simp only [map_cons, further_cons, fieldText, length_append, length_cons]
      at hfuel
    obtain ⟨fuel, rfl⟩ := Nat.exists_eq_add_one_of_ne_zero (show fuel ≠ 0 by omega)
    obtain ⟨more, hmore⟩ : ∃ more, more = fieldText ascii text field₂ ++
        (further gap (fields.map (fieldText ascii text)) ++ (gap' ++ '\x7d' :: rest)) := ⟨_, rfl⟩
    obtain ⟨pos₁, hname⟩ := readName_encode ascii field.1 hfield (',' :: (gap ++ more)) pos
    obtain ⟨pos₂, hvalue⟩ := hfield.reads (fuel + 1) (',' :: (gap ++ more)) pos₁ (by omega)
    have hkeys₂ : (Dict.keys (acc ++ [field] ++ field₂ :: fields)).Nodup := by simpa using hkeys
    obtain ⟨pos', hrest⟩ := ih hfields.2 hfields.1 fuel (acc ++ [field])
      (pos₂ + 1 + gap.length) hkeys₂ (by
        simp only [fieldText, length_append, length_cons]
        omega) (setField_of_nodup hkeys₂)
    have hcomma := readFields_of_comma hname hvalue acc
    have hskip : Input.skipGaps ⟨gap ++ more, pos₂ + 1⟩ = ⟨more, pos₂ + 1 + gap.length⟩ := by
      rw [hmore, fieldText, toList_encode]
      exact skipGaps_append hgap rfl _ _
    rw [← hmore] at hrest
    rw [hset, hskip, hrest] at hcomma
    refine ⟨pos', ?_⟩
    simpa [fieldText, further_cons, hmore] using hcomma

theorem readValue_object {pos' : Nat} {cs tail : List Char}
    (h : Input.skipGaps ⟨cs, pos + 1⟩ = ⟨'"' :: tail, pos'⟩) :
    readValue (fuel + 1) ⟨'\x7b' :: cs, pos⟩ = readFields fuel [] ⟨'"' :: tail, pos'⟩ := by
  rw [readValue]
  simp only [Input.advance, drop_succ_cons, drop_zero, h]
  rfl

theorem spells_obj {ascii : Bool} (hgap : IsGap gap) (hgap' : IsGap gap') (hgap'' : IsGap gap'')
    (hkeys : (Dict.keys (field :: fields)).Nodup)
    (h : ∀ f ∈ field :: fields, Spells (text f.2) f.2) :
    Spells ('\x7b' :: (gap ++ (fieldText ascii text field ++
        (further gap' (fields.map (fieldText ascii text)) ++ (gap'' ++ ['\x7d'])))))
      (.obj (field :: fields)) := by
  obtain ⟨hfield, hfields⟩ := forall_mem_cons.1 h
  refine ⟨⟨_, _, rfl, .inr (.inr rfl)⟩, ?_, ?_⟩
  · intro fuel rest pos hfuel
    simp only [length_cons, length_append, length_nil] at hfuel
    obtain ⟨fuel, rfl⟩ := Nat.exists_eq_add_of_le' (show 2 ≤ fuel by omega)
    obtain ⟨pos', hread⟩ := readFields_spells ascii hgap' hgap'' hfields rest hfield fuel []
      (pos + 1 + gap.length) hkeys (by rw [length_append]; omega)
    refine ⟨pos', ?_⟩
    simp only [cons_append, append_assoc, nil_append]
    rw [fieldText, toList_encode] at hread ⊢
    exact (readValue_object (skipGaps_append hgap rfl _ _)).trans hread
  · have hfurther : '\r' ∉ further gap' (fields.map (fieldText ascii text)) := by
      refine return_notMem_further hgap' fun t ht => ?_
      obtain ⟨f, hf, rfl⟩ := mem_map.1 ht
      exact return_notMem_fieldText ascii (hfields f hf)
    simp [return_notMem_gap, hfurther, hgap, hgap'', return_notMem_fieldText ascii hfield]

/-! ### Whole documents -/

/-- A document of texts, lists and objects, in which no object has two fields of one name. -/
inductive Textual : Json → Prop
  | str (s : String) : Textual (.str s)
  | arr {items : List Json} (h : ∀ j ∈ items, Textual j) : Textual (.arr items)
  | obj {fields : List (String × Json)} (hkeys : (Dict.keys fields).Nodup)
      (h : ∀ field ∈ fields, Textual field.2) : Textual (.obj fields)

theorem renderItems_eq_map (l : Layout) (depth : Nat) (items : List Json) :
    renderItems l depth items = items.map (renderAt l depth) := by
  induction items with
  | nil => rw [renderItems, map_nil]
  | cons j items ih => rw [renderItems, ih, map_cons]

theorem renderFields_eq_map (l : Layout) (depth : Nat) (fields : List (String × Json)) :
    renderFields l depth fields = fields.map fun field =>
      encode l.ascii field.1 ++ ": " ++ renderAt l depth field.2 := by
  induction fields with
  | nil => rw [renderFields, map_nil]
  | cons field fields ih => rw [renderFields, ih, map_cons]

theorem toList_times (n : Nat) : (times " " n).toList = replicate n ' ' := by
  induction n with
  | zero => rfl
  | succ n ih => simpa [times, replicate_succ] using ih

theorem isGap_lineBreak (n : Nat) : IsGap ('\n' :: replicate n ' ') := by
  intro c hc
  rcases mem_cons.1 hc with rfl | hc
  · exact .inr rfl
  · exact .inl (eq_of_mem_replicate hc)

theorem isGap_opened (l : Layout) (depth : Nat) : IsGap (l.opened depth).toList := by
  unfold Layout.opened
  cases l.indent with
  | none => simp [IsGap]
  | some n => simpa [toList_times] using isGap_lineBreak (n * depth)

theorem toList_between (l : Layout) (depth : Nat) :
    ∃ gap, IsGap gap ∧ (l.between depth).toList = ',' :: gap := by
  unfold Layout.between
  cases l.indent with
  | none => exact ⟨[' '], by simp [IsGap], by simp⟩
  | some n => exact ⟨_, isGap_lineBreak (n * depth), by simp [toList_times]⟩

theorem toList_renderAt_arr (l : Layout) (depth : Nat) (j : Json) (items : List Json)
    (hgap : (l.between (depth + 1)).toList = ',' :: gap) :
    (renderAt l depth (.arr (j :: items))).toList =
      '[' :: ((l.opened (depth + 1)).toList ++ ((renderAt l (depth + 1) j).toList ++
        (further gap (items.map fun j => (renderAt l (depth + 1) j).toList) ++
          ((l.opened depth).toList ++ [']'])))) := by
  rw [renderAt]
  · simp [renderItems_eq_map, toList_join_eq_flatMap, hgap, further, flatMap_map]
  · exact cons_ne_nil j items

theorem toList_renderAt_obj (l : Layout) (depth : Nat) (field : String × Json)
    (fields : List (String × Json)) (hgap : (l.between (depth + 1)).toList = ',' :: gap) :
    (renderAt l depth (.obj (field :: fields))).toList =
      '\x7b' :: ((l.opened (depth + 1)).toList ++
        (fieldText l.ascii (fun j => (renderAt l (depth + 1) j).toList) field ++
          (further gap (fields.map
            (fieldText l.ascii fun j => (renderAt l (depth + 1) j).toList)) ++
            ((l.opened depth).toList ++ ['\x7d'])))) := by
  rw [renderAt]
  · simp [renderFields_eq_map, toList_join_eq_flatMap, hgap, further, fieldText, flatMap_map]
  · exact cons_ne_nil field fields

theorem spells_empty : Spells ['[', ']'] (.arr []) ∧ Spells ['\x7b', '\x7d'] (.obj []) := by
  refine ⟨⟨⟨_, _, rfl, .inr (.inl rfl)⟩, ?_, by decide⟩,
    ⟨⟨_, _, rfl, .inr (.inr rfl)⟩, ?_, by decide⟩⟩
  · intro fuel rest pos hfuel
    obtain ⟨fuel, rfl⟩ := Nat.exists_eq_add_of_le' (show 1 ≤ fuel from Nat.le_of_succ_le hfuel)
    exact ⟨pos + 2, rfl⟩
  · intro fuel rest pos hfuel
    obtain ⟨fuel, rfl⟩ := Nat.exists_eq_add_of_le' (show 1 ≤ fuel from Nat.le_of_succ_le hfuel)
    exact ⟨pos + 2, rfl⟩

theorem spells_renderAt (l : Layout) (hj : Textual j) (depth : Nat) :
    Spells (j.renderAt l depth).toList j := by
  have hopened := isGap_opened l
  induction hj generalizing depth with
  | str s =>
    rw [renderAt]
    exact spells_encode l.ascii s
  | @arr items _ ih =>
    obtain ⟨gap, hgap, hbetween⟩ := toList_between l (depth + 1)
    cases items with
    | nil =>
      rw [renderAt]
      exact spells_empty.1
    | cons j items =>
      rw [toList_renderAt_arr l depth j items hbetween]
      exact spells_arr (hopened _) hgap (hopened _) fun j' hj' => ih j' hj' (depth + 1)
  | @obj fields hkeys _ ih =>
    obtain ⟨gap, hgap, hbetween⟩ := toList_between l (depth + 1)
    cases fields with
    | nil =>
      rw [renderAt]
      exact spells_empty.2
    | cons field fields =>
      rw [toList_renderAt_obj l depth field fields hbetween]
      exact spells_obj (hopened _) hgap (hopened _) hkeys fun f hf => ih f hf (depth + 1)

theorem parse_render_textual (l : Layout) (hj : Textual j) : parse (j.render l) = .ok j := by
  have hspells : Spells (j.render l).toList j := spells_renderAt l hj 0
  obtain ⟨pos', hread⟩ := hspells.reads (2 * (j.render l).toList.length + 2) [] 0 (by omega)
  obtain ⟨c, tail, hc, hopen⟩ := hspells.opens
  have hmark : ¬ (j.render l).toList.head? = some '\ufeff' := by
    rcases hopen with rfl | rfl | rfl <;> simp [hc]
  have hskip : Input.skipGaps ⟨(j.render l).toList, 0⟩ = ⟨(j.render l).toList, 0⟩ := by
    rw [hc]
    exact skipGaps_of_not_gap (by rcases hopen with rfl | rfl | rfl <;> rfl) tail 0
  rw [append_nil] at hread
  simp only [parse, beq_iff_eq, hmark, hskip, hread]
  rfl

end CodeAtlas.Json

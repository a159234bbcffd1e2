import CodeAtlas.Cflow
import CodeAtlas.Proofs.Pattern

/-!
# Reading a written line

A line of an outline is read back as it was written (`entry?_writeLine`): its
depth, its name and its number, for every name without white space and opening
parenthesis.
-/

namespace CodeAtlas.Cflow

open Pattern Text List Option

variable {name : String} {inner : List Char} {r : Progress}

/-- A name that is not empty and has neither white space nor an opening parenthesis. -/
def PlainName (name : String) : Prop :=
  name.toList ≠ [] ∧ ∀ c ∈ name.toList, isBlank c = false ∧ c ≠ '('

instance (name : String) : Decidable (PlainName name) :=
  decidable_of_iff (name.toList ≠ [] ∧
    name.toList.all (fun c => !isBlank c && c != '(') = true) (by simp [PlainName])

theorem PlainName.ne_empty (h : PlainName name) : name ≠ "" := by
  rintro rfl
  exact h.1 rfl

theorem PlainName.ink (h : PlainName name) :
    ∀ c ∈ name.toList ++ ['(', ')'], isBlank c = false := by
  intro c hc
  rcases mem_append.1 hc with hc | hc
  · exact (h.2 c hc).1
  · have hparens : ['(', ')'].all (!isBlank ·) = true := by decide
    simpa using all_eq_true.1 hparens c hc

/-! ### The parts of the pattern -/

def inkSet : CharSet := { items := [.blank true] }

def bracketed (index : Nat) (opening closing : Char) : Pattern :=
  .rounds (.group index (.seq (.seq (.seq (.rounds (.char blankSet) 1 none true)
    (.char (.single opening))) (.rounds (.char sameLineSet) 0 none true))
    (.char (.single closing)))) 0 (some 1) true

def ending : Pattern :=
  .seq (.seq (bracketed 3 '<' '>') (bracketed 4 '(' ')')) (.anchor .textEnd)

theorem holds_inkSet (c : Char) : inkSet.holds c = !isBlank c := by
  simp [CharSet.holds, inkSet, CharItem.holds]

theorem ne_feed_of_isBlank {c : Char} (h : isBlank c = false) : c ≠ '\n' := by
  rintro rfl
  exact absurd h (by decide)

/-! ### Behind the name -/

section

variable {cs : List Char} {pos : Nat} {captures : List Capture}
  {rest : Progress → Option Progress}

theorem run_bracketed_skip (index : Nat) (opening closing : Char)
    (h : ∀ c, (cs.drop pos).head? = some c → isBlank c = false) :
    (bracketed index opening closing).run cs.toArray rest ⟨pos, captures⟩ =
      rest ⟨pos, captures⟩ := by
  have hblank : ∀ c, (cs.drop pos).head? = some c → blankSet.holds c = false := by
    intro c hc
    rw [holds_blankSet, h c hc]
  rw [bracketed, run_optional (by simp), run_group, run_seq, run_seq, run_seq,
    run_rounds_char_none (by decide) hblank, none_or]

theorem run_bracketed {index : Nat} {opening closing : Char}
    (h : cs.drop pos = ' ' :: opening :: (inner ++ [closing]))
    (hopening : isBlank opening = false) (hinner : ∀ c ∈ inner ++ [closing], c ≠ '\n')
    (hrest : rest ⟨cs.length, ⟨index, pos, cs.length⟩ :: captures⟩ = some r) :
    (bracketed index opening closing).run cs.toArray rest ⟨pos, captures⟩ = some r := by
  have h₁ : cs.drop (pos + 1) = opening :: (inner ++ [closing]) := drop_next h
  have h₂ : cs.drop (pos + 1 + 1) = inner ++ [closing] := drop_next h₁
  have h₃ : cs.drop (pos + 1 + 1 + inner.length) = [closing] := drop_add h₂
  have hlength : pos + 1 + 1 + (inner.length + 1) = cs.length := by
    have hlen := congrArg length h
    simp only [length_drop, length_cons, length_append, length_nil] at hlen
    omega
  have h₄ : cs.drop cs.length = [] := drop_length
  have hstop : ∀ c, (opening :: (inner ++ [closing])).head? = some c →
      blankSet.holds c = false := by
    intro c hc
    obtain rfl : opening = c := by simpa using hc
    rw [holds_blankSet, hopening]
  have htake : (inner ++ [closing]).takeWhile sameLineSet.holds = inner ++ [closing] :=
    takeWhile_eq_self_iff.2 fun c hc => (holds_sameLineSet c).2 (hinner c hc)
  rw [bracketed, run_optional (by simp), run_group, run_seq, run_seq, run_seq,
    run_rounds_char_all (l := [' ']) (r := r) h (all_eq_true.1 rfl) hstop (by decide),
    some_or]
  rw [length_singleton, run_char h₁, if_pos ((holds_single _ _).2 rfl), run_rounds_char, h₂,
    htake, if_neg (by omega), if_pos rfl, length_append, length_singleton, Nat.sub_zero]
  -- the bracket is the last character, so the repetition gives back one round
  rw [tryDown_next]
  · apply tryDown_top
    rw [Nat.zero_add, run_char h₃, if_pos ((holds_single _ _).2 rfl), Nat.add_assoc _ _ 1, hlength]
    exact hrest
  · rw [Nat.zero_add, hlength, run_char_end h₄]

theorem run_ending_none {c : Char} {after : List Char} (h : cs.drop pos = c :: after)
    (hc : isBlank c = false) :
    ending.run cs.toArray rest ⟨pos, captures⟩ = none := by
  have hhead : ∀ d, (cs.drop pos).head? = some d → isBlank d = false := by
    intro d hd
    rw [h, head?_cons, Option.some.injEq] at hd
    exact hd ▸ hc
  have hchar : cs.toArray[pos]? = some c := by
    rw [getElem?_toArray, ← head?_drop, h, head?_cons]
  have hpos : pos < cs.length := by
    by_contra hle
    rw [drop_eq_nil_of_le (Nat.not_lt.1 hle)] at h
    exact absurd h (by simp)
  have hanchor : Anchor.holds cs.toArray pos .textEnd = false := by
    rw [Anchor.holds, hchar]
    simp [ne_feed_of_isBlank hc, Nat.ne_of_lt hpos]
  rw [ending, run_seq, run_seq, run_bracketed_skip _ _ _ hhead, run_bracketed_skip _ _ _ hhead, run,
    if_neg (by simp [hanchor])]

theorem run_ending (h : cs.drop pos = ' ' :: '<' :: (inner ++ ['>']))
    (hinner : ∀ c ∈ inner ++ ['>'], c ≠ '\n')
    (hrest : rest ⟨cs.length, ⟨3, pos, cs.length⟩ :: captures⟩ = some r) :
    ending.run cs.toArray rest ⟨pos, captures⟩ = some r := by
  have hend : ∀ c, (cs.drop cs.length).head? = some c → isBlank c = false := by simp
  rw [ending, run_seq, run_seq]
  apply run_bracketed h (by decide) hinner
  rw [run_bracketed_skip _ _ _ hend, run, if_pos (by simp [Anchor.holds]), hrest]

end

/-! ### The whole line -/

theorem linePattern_eq : linePattern =
    .seq (.seq (.seq (.seq (.seq (.anchor .textStart)
      (.group 1 blankRun))
      (.group 2 (.seq (.char inkSet) (.rounds (.char sameLineSet) 0 none false))))
      (bracketed 3 '<' '>')) (bracketed 4 '(' ')')) (.anchor .textEnd) := by
  decide

section

variable {cs : List Char} {depth : Nat} {body : List Char}
  (hbody : body ≠ []) (hink : ∀ c ∈ body, isBlank c = false)
  (hinner : ∀ c ∈ inner ++ ['>'], c ≠ '\n')

include hbody hink hinner

/-- Behind the blanks, the name goes up to the place: a shorter one fails at a
character that is not blank. -/
theorem run_body {pos : Nat} {captures : List Capture} {rest : Progress → Option Progress}
    (h : cs.drop pos = body ++ ' ' :: '<' :: (inner ++ ['>']))
    (hrest : rest ⟨cs.length,
      ⟨3, pos + body.length, cs.length⟩ :: ⟨2, pos, pos + body.length⟩ :: captures⟩ = some r) :
    (Pattern.group 2 (.seq (.char inkSet) (.rounds (.char sameLineSet) 0 none false))).run
      cs.toArray (ending.run cs.toArray rest) ⟨pos, captures⟩ = some r := by
  obtain ⟨c, tail, rfl⟩ := exists_cons_of_ne_nil hbody
  have htail : cs.drop (pos + 1) = tail ++ ' ' :: '<' :: (inner ++ ['>']) := drop_next h
  have htake : (tail ++ ' ' :: '<' :: (inner ++ ['>'])).takeWhile sameLineSet.holds =
      tail ++ ' ' :: '<' :: (inner ++ ['>']) := by
    apply takeWhile_eq_self_iff.2
    intro d hd
    rw [holds_sameLineSet]
    rcases mem_append.1 hd with hd | hd
    · exact ne_feed_of_isBlank (hink d (mem_cons_of_mem _ hd))
    · rcases mem_cons.1 hd with rfl | hd
      · decide
      · rcases mem_cons.1 hd with rfl | hd
        · decide
        · exact hinner d hd
  have hc : inkSet.holds c = true := by
    rw [holds_inkSet, hink c mem_cons_self, Bool.not_false]
  rw [run_group, run_seq, run_char h, if_pos hc, run_rounds_char, htail, htake,
    if_neg (by omega), if_neg (by decide)]
  apply tryUp_first (k := tail.length)
  · simp
  · intro i hi
    rw [Nat.zero_add]
    have hdrop : cs.drop (pos + 1 + i) =
        tail[i] :: (tail.drop (i + 1) ++ ' ' :: '<' :: (inner ++ ['>'])) := by
      rw [← drop_drop, htail, drop_append_of_le_length (by omega),
        drop_eq_getElem_cons hi, cons_append]
    exact run_ending_none hdrop (hink _ (mem_cons_of_mem _ (getElem_mem hi)))
  · have hlength : pos + 1 + tail.length = pos + (c :: tail).length := by
      rw [length_cons]
      omega
    rw [Nat.zero_add, hlength]
    exact run_ending (drop_add h) hinner hrest

theorem matchStart?_line
    (hcs : cs = replicate depth ' ' ++ (body ++ ' ' :: '<' :: (inner ++ ['>']))) :
    linePattern.matchStart? (String.ofList cs) = some
      { text := cs.toArray, start := 0, stop := cs.length,
        captures := [⟨3, depth + body.length, cs.length⟩, ⟨2, depth, depth + body.length⟩,
          ⟨1, 0, depth⟩] } := by
  have hstop : ∀ c, (body ++ ' ' :: '<' :: (inner ++ ['>'])).head? = some c →
      blankSet.holds c = false := by
    obtain ⟨c, tail, rfl⟩ := exists_cons_of_ne_nil hbody
    intro d hd
    obtain rfl : c = d := by simpa using hd
    rw [holds_blankSet, hink c mem_cons_self]
  have hblank : ∀ c ∈ replicate depth ' ', blankSet.holds c = true := by
    intro c hc
    rw [eq_of_mem_replicate hc]
    decide
  have hdrop : cs.drop 0 = replicate depth ' ' ++ (body ++ ' ' :: '<' :: (inner ++ ['>'])) := by
    rw [drop_zero, hcs]
  have hbodyDrop : cs.drop depth = body ++ ' ' :: '<' :: (inner ++ ['>']) := by
    have hadd := drop_add hdrop
    rwa [length_replicate, Nat.zero_add] at hadd
  have hrun : linePattern.run cs.toArray some ⟨0, []⟩ = some ⟨cs.length,
      [⟨3, depth + body.length, cs.length⟩, ⟨2, depth, depth + body.length⟩, ⟨1, 0, depth⟩]⟩ := by
    rw [linePattern_eq, run_seq, run_seq, run_seq, run_seq, run_seq, run, if_pos (by rfl),
      run_group]
    apply run_rounds_char_all hdrop hblank hstop (Nat.zero_le _)
    rw [length_replicate, Nat.zero_add]
    exact run_body hbody hink hinner hbodyDrop rfl
  rw [matchStart?, matchAt?_false, String.toList_ofList, hrun]
  rfl

theorem groups_line (hcs : cs = replicate depth ' ' ++ (body ++ ' ' :: '<' :: (inner ++ ['>']))) :
    ∃ m, linePattern.matchStart? (String.ofList cs) = some m ∧
      m.group 1 = String.ofList (replicate depth ' ') ∧ m.group 2 = String.ofList body ∧
      m.group? 3 = some (String.ofList (' ' :: '<' :: (inner ++ ['>']))) := by
  refine ⟨_, matchStart?_line hbody hink hinner hcs, ?_, ?_, ?_⟩
  · exact Match.between_toArray [] _ hcs rfl (by simp)
  · exact Match.between_toArray _ _ hcs (by simp) rfl
  · apply congrArg some
    apply Match.between_toArray (replicate depth ' ' ++ body) []
    · rw [hcs]
      simp
    · simp
    · rw [hcs]
      simp
      omega

end

/-! ### The place -/

theorem placePattern_eq : placePattern =
    .seq (.seq (.seq (.seq (.seq (.seq (.seq (.char (.single '<'))
      blankRun)
      (.char (.single 'a'))) (.char (.single 't'))) (.rounds (.char blankSet) 1 none true))
      (.group 1 (.rounds (.char digitSet) 1 none true))) blankRun)
      (.char (.single '>')) := by
  decide

theorem search?_place {digits : List Char} (hdigits : digits ≠ [])
    (hdecimal : ∀ c ∈ digits, c.isDigit = true) :
    (placePattern.search? (String.ofList ([' '] ++ ("<at ".toList ++ (digits ++ ['>']))))).map
      (·.group 1) = some (String.ofList digits) := by
  have hset : ∀ c ∈ digits, digitSet.holds c = true := by
    intro c hc
    rw [holds_digitSet, isDecimal_digit (hdecimal c hc)]
  have hclose : ∀ c, ['>'].head? = some c → digitSet.holds c = false := by
    rintro _ ⟨⟩
    decide
  have hdigit : ∀ c, (digits ++ ['>']).head? = some c → blankSet.holds c = false := by
    obtain ⟨d, tail, rfl⟩ := exists_cons_of_ne_nil hdigits
    rintro _ ⟨⟩
    rw [holds_blankSet, isBlank_digit (hdecimal d mem_cons_self)]
  obtain ⟨cs, hcs⟩ : ∃ cs, [' '] ++ ("<at ".toList ++ (digits ++ ['>'])) = cs := ⟨_, rfl⟩
  have h₀ : cs.drop 0 = ' ' :: '<' :: 'a' :: 't' :: ' ' :: (digits ++ ['>']) := hcs.symm
  have h₁ := drop_next h₀
  have h₂ := drop_next h₁
  have h₃ := drop_next h₂
  have h₄ := drop_next h₃
  have h₅ := drop_next h₄
  have h₆ := drop_add h₅
  have hfirst : placePattern.run cs.toArray some ⟨0, []⟩ = none := by
    rw [placePattern_eq]
    simp only [run_seq]
    rw [run_char h₀, if_neg (by decide)]
  have hrun : placePattern.run cs.toArray some ⟨1, []⟩ =
      some ⟨5 + digits.length + 1, [⟨1, 5, 5 + digits.length⟩]⟩ := by
    rw [placePattern_eq]
    simp only [run_seq]
    rw [run_char h₁, if_pos (by decide)]
    apply run_rounds_char_all (l := []) h₂ (by simp) (by rintro _ ⟨⟩; decide) (Nat.le_refl 0)
    rw [length_nil, Nat.add_zero, run_char h₂, if_pos (by decide), run_char h₃, if_pos (by decide)]
    apply run_rounds_char_all (l := [' ']) h₄ (all_eq_true.1 rfl) hdigit (Nat.le_refl 1)
    rw [length_singleton, run_group]
    apply run_rounds_char_all h₅ hset hclose (length_pos_iff.2 hdigits)
    apply run_rounds_char_all (l := []) h₆ (by simp) (by rintro _ ⟨⟩; decide) (Nat.le_refl 0)
    rw [length_nil, Nat.add_zero, run_char h₆, if_pos (by decide)]
  have hbefore : ∀ {l : List Char} {c r}, [' '] = l ++ c :: r →
      placePattern.run cs.toArray some ⟨l.length, []⟩ = none := by
    intro l c r hl
    rw [(append_eq_singleton_iff.1 hl.symm).resolve_right (by simp) |>.1]
    exact hfirst
  subst hcs
  rw [search?_of_append hbefore hrun, map_some]
  exact congrArg some (Match.between_toArray " <at ".toList _ rfl rfl rfl)

theorem number_place (line : Nat) :
    (placePattern.search? (String.ofList (' ' :: '<' ::
      (('a' :: 't' :: ' ' :: Nat.toDigits 10 line) ++ ['>'])))).map
        (fun p => digitsValue (p.group 1)) = some line := by
  have hgroup := congrArg (Option.map digitsValue) (search?_place
    (Nat.toDigits_ne_nil (n := line) (b := 10))
    fun c hc => Nat.isDigit_of_mem_toDigits (by decide) (by decide) hc)
  rw [Option.map_map, Option.map_some, digitsValue_toDigits] at hgroup
  exact hgroup

/-! ### Reading back -/

theorem cleanName_call (h : PlainName name) :
    cleanName (String.ofList (name.toList ++ ['(', ')'])) = name := by
  have hfound : occursIn "(" (String.ofList (name.toList ++ ['(', ')'])) = true := by
    rw [occursIn, String.toList_ofList]
    exact findList?_isSome_of_mem (by simp)
  have hparen : '(' ∉ name.toList := fun hmem => (h.2 _ hmem).2 rfl
  rw [cleanName, if_pos hfound, split_headD rfl hparen, String.ofList_toList, strip,
    trimList_eq_self fun c hc => (h.2 c hc).1, String.ofList_toList]

theorem writeLine_eq (depth : Nat) (name : String) (line : Nat) :
    writeLine depth name line = String.ofList (replicate (4 * depth) ' ' ++
      ((name.toList ++ ['(', ')']) ++ ' ' :: '<' :: (('a' :: 't' :: ' ' :: Nat.toDigits 10 line) ++
        ['>']))) := by
  rw [← String.toList_inj, writeLine, Nat.toString_eq_ofList_toDigits]
  simp [String.toList_append]

theorem isLine_writeLine (h : PlainName name) (depth line : Nat) :
    Text.IsLine (writeLine depth name line).toList := by
  rw [writeLine_eq, String.toList_ofList]
  refine ⟨by simp, fun c hc => ?_⟩
  have hparts : c = ' ' ∨ c ∈ name.toList ∨ c ∈ "()<at>".toList ∨ c ∈ Nat.toDigits 10 line := by
    simp only [mem_append, mem_cons, mem_replicate, not_mem_nil] at hc
    simp only [String.reduceToList, mem_cons, not_mem_nil]
    tauto
  rcases hparts with rfl | hname | hsign | hdigit
  · decide
  · exact not_isLineEnd_of_not_isBlank (h.2 c hname).1
  · have hsigns : "()<at>".toList.all (!isLineEnd ·) = true := by decide
    simpa using all_eq_true.1 hsigns c hsign
  · have hc : c.isDigit = true := Nat.isDigit_of_mem_toDigits (by decide) (by decide) hdigit
    exact not_isLineEnd_of_not_isBlank (isBlank_digit hc)

theorem entry?_writeLine (h : PlainName name) (depth line : Nat) :
    entry? (writeLine depth name line) = some ⟨4 * depth, name, line⟩ := by
  have hline := (isLine_writeLine h depth line).2
  have hwrite := writeLine_eq depth name line
  have hne : name.toList ++ ['(', ')'] ≠ [] := by simp
  have hfeed : ∀ c ∈ ('a' :: 't' :: ' ' :: Nat.toDigits 10 line) ++ ['>'], c ≠ '\n' := by
    rintro _ hc rfl
    have hmem : '\n' ∈ (writeLine depth name line).toList := by
      rw [hwrite, String.toList_ofList]
      exact mem_append_right _ (mem_append_right _
        (mem_cons_of_mem _ (mem_cons_of_mem _ hc)))
    exact absurd (hline _ hmem) (by decide)
  have hblank : (strip (writeLine depth name line)).isEmpty = false := by
    have hmem : '<' ∈ (writeLine depth name line).toList := by
      rw [hwrite, String.toList_ofList]
      simp
    exact isEmpty_strip hmem (by decide)
  obtain ⟨m, hmatch, hindent, hname, hplace⟩ := groups_line hne h.ink hfeed rfl
  rw [← hwrite] at hmatch
  unfold entry?
  rw [if_neg (by simp [hblank]), hmatch, map_some, hindent, hname, hplace]
  simp only [Option.some.injEq, Entry.mk.injEq]
  refine ⟨by simp [size], cleanName_call h, ?_⟩
  rw [number_place, Option.getD_some]

end CodeAtlas.Cflow

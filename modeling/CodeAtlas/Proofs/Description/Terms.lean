import CodeAtlas.Description.Terms
import CodeAtlas.Proofs.Dict
import CodeAtlas.Proofs.Pattern

/-!
# Names of code in a description

The terms of code of a text are what three searches find in it: words with a
capital inside, words with underscores, names in front of empty parentheses.
What each search reads at a place is told by a function of the characters that
stand there (`camel?`, `snake?`, `call?`).

The pattern for underscores has a group, so its search gives back the group and
not the word: the last part of a word of three parts or more, and nothing of a
word of two. Every name begins with a letter and no such part does, so a text
with a single word of this kind has terms that are no names
(`codeTerms_eq_names_iff`).
-/

namespace CodeAtlas.Description

open Pattern Text List

variable {cs : List Char} {pos : Nat} {captures : List Capture} {rest : Progress → Option Progress}
  {c : Char} {t : String}

def lowers : CharSet := { items := [.range 'a' 'z'] }

def uppers : CharSet := { items := [.range 'A' 'Z'] }

def letters : CharSet := { items := [.range 'a' 'z', .range 'A' 'Z'] }

def plain : CharSet := { items := [.range 'a' 'z', .range '0' '9'] }

def wordly : CharSet := { items := [.range 'a' 'z', .range 'A' 'Z', .range '0' '9'] }

theorem holds_of_subset {items more : List CharItem} (h : items ⊆ more)
    (hc : CharSet.holds { items } c = true) : CharSet.holds { items := more } c = true := by
  simp only [CharSet.holds, Bool.false_and, Bool.or_false, Bool.bne_false, any_eq_true] at hc ⊢
  exact hc.imp fun item hitem => ⟨h hitem.1, hitem.2⟩

theorem wordly_of_uppers (h : uppers.holds c = true) : wordly.holds c = true :=
  holds_of_subset (by decide) h

theorem letters_of_lowers (h : lowers.holds c = true) : letters.holds c = true :=
  holds_of_subset (by decide) h

theorem wordly_of_letters (h : letters.holds c = true) : wordly.holds c = true :=
  holds_of_subset (by decide) h

def partPattern : Pattern := .seq (.char (.single '_')) (.rounds (.char plain) 1 none true)

theorem camelCase_eq : camelCase =
    .seq (.seq (.seq (.char lowers) (.rounds (.char wordly) 0 none true)) (.char uppers))
      (.rounds (.char wordly) 0 none true) := by
  decide +kernel

theorem snakeCase_eq : snakeCase =
    .seq (.seq (.seq (.seq (.char lowers) (.rounds (.char plain) 0 none true))
      (.char (.single '_'))) (.rounds (.char plain) 1 none true))
        (.rounds (.group 1 partPattern) 0 none true) := by
  decide +kernel

theorem emptyCall_eq : emptyCall =
    .seq (.seq (.seq (.char letters) (.rounds (.char wordly) 0 none true)) (.char (.single '(')))
      (.char (.single ')')) := by
  decide +kernel

/-! ### Words with capitals inside -/

def camel? : List Char → Option (String × List Char)
  | [] => none
  | c :: cs =>
    if lowers.holds c ∧ (cs.takeWhile wordly.holds).any uppers.holds then
      some (String.ofList (c :: cs.takeWhile wordly.holds), cs.dropWhile wordly.holds)
    else none

theorem run_capital (pos : Nat) :
    (Pattern.rounds (.char wordly) 0 none true).run cs.toArray
        ((Pattern.char uppers).run cs.toArray
          ((Pattern.rounds (.char wordly) 0 none true).run cs.toArray some)) ⟨pos, captures⟩ =
      if ((cs.drop pos).takeWhile wordly.holds).any uppers.holds then
        some ⟨pos + ((cs.drop pos).takeWhile wordly.holds).length, captures⟩
      else none := by
  have hlast : ∀ p, (Pattern.rounds (.char wordly) 0 none true).run cs.toArray some ⟨p, captures⟩ =
      some ⟨p + ((cs.drop p).takeWhile wordly.holds).length, captures⟩ := fun p =>
    run_rounds_char_greedy (Nat.zero_le _) rfl
  cases hrun : (Pattern.rounds (.char wordly) 0 none true).run cs.toArray _ ⟨pos, captures⟩ with
  | none =>
    refine (if_neg fun hany => ?_).symm
    obtain ⟨u, hu, hupper⟩ := any_eq_true.1 hany
    obtain ⟨l, tail, htaken⟩ := append_of_mem hu
    have hdrop : cs.drop pos = l ++ (u :: (tail ++ (cs.drop pos).dropWhile wordly.holds)) := by
      rw [← cons_append, ← append_assoc, ← htaken, takeWhile_append_dropWhile]
    have hl : ∀ c ∈ l, wordly.holds c = true := fun c hc =>
      mem_takeWhile_imp (htaken ▸ mem_append_left _ hc)
    refine Option.not_isSome_iff_eq_none.2 hrun
      (isSome_run_rounds_char_iff.2 ⟨l, _, hdrop, hl, ?_⟩)
    rw [run_char (drop_add hdrop), if_pos hupper, hlast, Option.isSome_some]
  | some r =>
    obtain ⟨l, after, hdrop, hl, -, hrest⟩ := exists_of_run_rounds_char hrun
    obtain ⟨u, tail, hnext, hupper, hend⟩ := exists_of_run_char hrest
    obtain rfl : after = u :: tail := by rw [← drop_add hdrop, hnext]
    rw [hdrop, takeWhile_append_of_pos hl, takeWhile_cons_of_pos (wordly_of_uppers hupper),
      if_pos (by simp [hupper]), ← hend, hlast, drop_next hnext]
    simp [Nat.add_assoc, Nat.add_comm]

theorem reads_camel : Reads camelCase Match.whole camel? := by
  refine .of_run fun cs pos => ?_
  rw [camelCase_eq, run_seq, run_seq, run_seq]
  cases hdrop : cs.drop pos with
  | nil => exact .inl ⟨rfl, run_char_end hdrop _⟩
  | cons c tail =>
    have htext : c :: tail = (c :: tail.takeWhile wordly.holds) ++ tail.dropWhile wordly.holds := by
      rw [cons_append, takeWhile_append_dropWhile]
    rw [run_char hdrop, run_capital, drop_next hdrop, camel?, ← ite_and]
    split
    · have hstop : pos + 1 + (tail.takeWhile wordly.holds).length =
          pos + (c :: tail.takeWhile wordly.holds).length := by
        rw [length_cons, Nat.add_right_comm, Nat.add_assoc]
      refine .inr ⟨_, _, _, [], htext, cons_ne_nil _ _, hstop, rfl, ?_⟩
      rw [Match.whole, hstop, Match.between_drop (hdrop.trans htext)]
    · exact .inl ⟨rfl, rfl⟩

/-! ### Names in front of empty parentheses -/

def call? : List Char → Option (String × List Char)
  | [] => none
  | c :: cs =>
    if letters.holds c then
      (dropStart? ['(', ')'] (cs.dropWhile wordly.holds)).map fun rest =>
        (String.ofList (c :: cs.takeWhile wordly.holds), rest)
    else none

theorem stripEndChars_append {word : List Char} (h : ∀ c ∈ word, wordly.holds c = true) :
    stripEndChars (String.ofList (word ++ ['(', ')'])) "()" = String.ofList word := by
  have hstop : ∀ c, word.reverse.head? = some c → ['(', ')'].contains c = false := by
    intro c hc
    rw [Bool.eq_false_iff]
    intro hmem
    have hparens : ∀ c ∈ ['(', ')'], wordly.holds c = false := by
      rintro c (_ | ⟨_, _ | ⟨_, ⟨⟩⟩⟩) <;> rfl
    have hword := h c (mem_reverse.1 (mem_of_mem_head? hc))
    rw [hparens c (contains_iff_mem.1 hmem)] at hword
    cases hword
  have hchars : "()".toList = ['(', ')'] := rfl
  simp only [stripEndChars, trimEndList, String.toList_ofList, reverse_append, hchars]
  rw [dropWhile_append_stop (fun _ hc => contains_iff_mem.2 (mem_reverse.1 hc)) hstop,
    reverse_reverse]

theorem reads_call : Reads emptyCall (fun m => stripEndChars m.whole "()") call? := by
  refine .of_run fun cs pos => ?_
  have hparens : ∀ q, (Pattern.char (.single '(')).run cs.toArray
      ((Pattern.char (.single ')')).run cs.toArray some) ⟨q, []⟩ =
        (dropStart? ['(', ')'] (cs.drop q)).bind fun _ => some ⟨q + 2, []⟩ := fun q =>
    run_word ['(', ')']
  rw [emptyCall_eq, run_seq, run_seq, run_seq]
  cases hdrop : cs.drop pos with
  | nil => exact .inl ⟨rfl, run_char_end hdrop _⟩
  | cons c tail =>
    have hname : cs.drop (pos + 1) =
        tail.takeWhile wordly.holds ++ tail.dropWhile wordly.holds := by
      rw [drop_next hdrop, takeWhile_append_dropWhile]
    rw [run_char hdrop, run_rounds_single (by decide), hparens, drop_next hdrop, drop_add hname,
      call?]
    split_ifs with hc
    · cases hstart : dropStart? ['(', ')'] (tail.dropWhile wordly.holds) with
      | none => exact .inl ⟨rfl, rfl⟩
      | some behind =>
        have htext : c :: tail = (c :: tail.takeWhile wordly.holds) ++ ['(', ')'] ++ behind := by
          rw [append_assoc, ← eq_append_of_dropStart? hstart, cons_append,
            takeWhile_append_dropWhile]
        have hword : ∀ d ∈ c :: tail.takeWhile wordly.holds, wordly.holds d = true :=
          forall_mem_cons.2 ⟨wordly_of_letters hc, fun d => mem_takeWhile_imp⟩
        have hlength : pos + 1 + (tail.takeWhile wordly.holds).length + 2 =
            pos + (c :: tail.takeWhile wordly.holds ++ ['(', ')']).length := by
          simp
          omega
        refine .inr ⟨_, behind, _, [], htext, by simp, hlength, rfl, ?_⟩
        rw [Match.whole, hlength, Match.between_drop (hdrop.trans htext),
          stripEndChars_append hword]
        rfl
    · exact .inl ⟨rfl, rfl⟩

/-! ### Words with underscores -/

/-- The parts behind a word, each an underscore and a word, and what is left. -/
def parts (cs : List Char) : List (List Char) × List Char :=
  match cs with
  | [] => ([], [])
  | c :: tail =>
    if c = '_' ∧ tail.takeWhile plain.holds ≠ [] then
      ((tail.takeWhile plain.holds) :: (parts (tail.dropWhile plain.holds)).1,
        (parts (tail.dropWhile plain.holds)).2)
    else ([], c :: tail)
termination_by cs.length
decreasing_by all_goals
  exact Nat.lt_succ_of_le (dropWhile_suffix _).length_le

def joined (parts : List (List Char)) : List Char := parts.flatMap ('_' :: ·)

theorem joined_parts (cs : List Char) : joined (parts cs).1 ++ (parts cs).2 = cs := by
  fun_induction parts cs with
  | case1 => rfl
  | case2 c tail h ih =>
    rw [joined, flatMap_cons, append_assoc, ← joined, ih, cons_append,
      takeWhile_append_dropWhile, h.1]
  | case3 => rfl

theorem runRounds_more {step : (Progress → Option Progress) → Progress → Option Progress}
    {last : Option Nat} {st : Progress} (h : last ≠ some st.pos) (fuel : Nat) :
    runRounds step true rest (fuel + 1) 0 none last st =
      (step (fun st' => runRounds step true rest fuel 0 none (some st.pos) st') st).or
        (rest st) := by
  have hlast : (last == some st.pos) = false := by simpa using h
  simp only [runRounds, hlast, Option.map_none]
  cases step (fun st' => runRounds step true rest fuel 0 none (some st.pos) st') st <;> simp

theorem run_partPattern_none {tail : List Char} (hdrop : cs.drop pos = c :: tail)
    (h : ¬ (c = '_' ∧ tail.takeWhile plain.holds ≠ [])) :
    partPattern.run cs.toArray rest ⟨pos, captures⟩ = none := by
  rw [partPattern, run_seq]
  by_cases hc : c = '_'
  · subst hc
    have hnone : tail.takeWhile plain.holds = [] := by simpa using h
    rw [run_single_self hdrop, run_rounds_char, drop_next hdrop, hnone]
    rfl
  · exact run_single_none hdrop hc

theorem run_partPattern_some {tail : List Char} {r : Progress} (hdrop : cs.drop pos = '_' :: tail)
    (h : tail.takeWhile plain.holds ≠ [])
    (hrest : rest ⟨pos + 1 + (tail.takeWhile plain.holds).length, captures⟩ = some r) :
    partPattern.run cs.toArray rest ⟨pos, captures⟩ = some r := by
  rw [← drop_next hdrop] at h hrest
  rw [partPattern, run_seq, run_single_self hdrop]
  exact run_rounds_char_greedy (length_pos_iff.2 h) hrest

/-- The rounds of the group take all parts, and the group remembers the last one. -/
theorem runRounds_parts {here : List Char} {fuel pos : Nat} {captures : List Capture}
    {last : Option Nat} (hdrop : cs.drop pos = here) (hfuel : here.length < fuel)
    (hlast : last ≠ some pos) :
    ∃ captures', runRounds ((Pattern.group 1 partPattern).run cs.toArray) true some fuel 0 none last
        ⟨pos, captures⟩ = some ⟨pos + (joined (parts here).1).length, captures'⟩ ∧
      ∀ start stop, (⟨cs.toArray, start, stop, captures'⟩ : Match).group? 1 =
        ((parts here).1.getLast?.map fun part => String.ofList ('_' :: part)).or
          ((⟨cs.toArray, start, stop, captures⟩ : Match).group? 1) := by
  fun_induction parts here generalizing fuel pos captures last with
  | case1 =>
    obtain ⟨fuel, rfl⟩ := Nat.exists_eq_add_one_of_ne_zero (Nat.ne_zero_of_lt hfuel)
    rw [runRounds_more hlast, run_group, partPattern, run_seq, run_char_end hdrop]
    exact ⟨captures, rfl, fun _ _ => rfl⟩
  | case2 c tail h ih =>
    obtain ⟨rfl, hne⟩ := h
    obtain ⟨fuel, rfl⟩ := Nat.exists_eq_add_one_of_ne_zero (Nat.ne_zero_of_lt hfuel)
    have hpart : cs.drop pos =
        ('_' :: tail.takeWhile plain.holds) ++ tail.dropWhile plain.holds := by
      rw [hdrop, cons_append, takeWhile_append_dropWhile]
    have hshorter := (dropWhile_suffix (l := tail) plain.holds).length_le
    have hfuel' := Nat.lt_of_le_of_lt hshorter (Nat.lt_of_succ_lt_succ hfuel)
    obtain ⟨captures', hrun, hgroup⟩ := @ih fuel _
      (⟨1, pos, pos + ('_' :: tail.takeWhile plain.holds).length⟩ :: captures) (some pos)
      (drop_add hpart) hfuel' (by simp)
    have hremembered := congrArg some (Match.between_drop hpart)
    refine ⟨captures', ?_, fun start stop => (hgroup start stop).trans ?_⟩
    · rw [runRounds_more hlast, run_group]
      refine (congrArg (Option.or · _) (run_partPattern_some hdrop hne ?_)).trans
        (Option.some_or ..)
      rw [Nat.add_right_comm]
      refine hrun.trans ?_
      simp [joined, Nat.add_assoc, Nat.add_comm]
    · rw [getLast?_cons]
      cases (parts (tail.dropWhile plain.holds)).1.getLast? with
      | none => exact hremembered
      | some part => rfl
  | case3 c tail h =>
    obtain ⟨fuel, rfl⟩ := Nat.exists_eq_add_one_of_ne_zero (Nat.ne_zero_of_lt hfuel)
    rw [runRounds_more hlast, run_group, run_partPattern_none hdrop h]
    exact ⟨captures, rfl, fun _ _ => rfl⟩

/-- A word with underscores, together with its last part if it has three or more. -/
def snake? : List Char → Option ((String × String) × List Char)
  | [] => none
  | c :: cs =>
    if lowers.holds c then
      match parts (cs.dropWhile plain.holds) with
      | ([], _) => none
      | (part :: more, rest) =>
        some ((String.ofList (c :: cs.takeWhile plain.holds ++ joined (part :: more)),
          String.ofList (joined more.getLast?.toList)), rest)
    else none

theorem reads_snake : Reads snakeCase (fun m => (m.whole, m.group 1)) snake? := by
  refine .of_run fun cs pos => ?_
  rw [snakeCase_eq, run_seq, run_seq, run_seq, run_seq]
  cases hdrop : cs.drop pos with
  | nil => exact .inl ⟨rfl, run_char_end hdrop _⟩
  | cons c tail =>
    have hname : cs.drop (pos + 1) = tail.takeWhile plain.holds ++ tail.dropWhile plain.holds := by
      rw [drop_next hdrop, takeWhile_append_dropWhile]
    have hbehind := drop_add hname
    rw [run_char hdrop, run_rounds_single (by decide), drop_next hdrop, snake?]
    split
    · generalize hhere : tail.dropWhile plain.holds = here at *
      fun_cases parts here with
      | case1 => exact .inl ⟨rfl, run_char_end hbehind _⟩
      | case2 d after h =>
        obtain ⟨rfl, hne⟩ := h
        have hpart : cs.drop (pos + 1 + (tail.takeWhile plain.holds).length) =
            ('_' :: after.takeWhile plain.holds) ++ after.dropWhile plain.holds := by
          rw [hbehind, cons_append, takeWhile_append_dropWhile]
        have htext : c :: tail = c :: tail.takeWhile plain.holds ++
            joined (after.takeWhile plain.holds :: (parts (after.dropWhile plain.holds)).1) ++
              (parts (after.dropWhile plain.holds)).2 := by
          have hrest := joined_parts (after.dropWhile plain.holds)
          simp only [joined, flatMap_cons, cons_append, append_assoc] at hrest ⊢
          rw [hrest, takeWhile_append_dropWhile, ← hhere, takeWhile_append_dropWhile]
        obtain ⟨captures, hrun, hgroup⟩ := @runRounds_parts cs _ _ _ [] none (drop_add hpart)
          (Nat.lt_succ_of_le (Nat.le_succ_of_le (by rw [← drop_add hpart, length_drop]))) (by simp)
        refine .inr ⟨_, _, _, captures, htext, by simp, rfl,
          run_partPattern_some hbehind hne ?_, ?_⟩
        · rw [Nat.add_right_comm _ 1]
          refine (show _ = _ from hrun).trans ?_
          simp [joined]
          omega
        · have hlast : ∀ last : Option (List Char), String.ofList (joined last.toList) =
              ((last.map fun part => String.ofList ('_' :: part)).or none).getD "" := by
            rintro (_ | part) <;> simp [joined]
          rw [Match.whole, Match.between_drop (hdrop.trans htext), Match.group, hgroup]
          exact congrArg (fun last => some ((_, last), _)) (hlast _)
      | case3 d after h => exact .inl ⟨rfl, run_partPattern_none hbehind h⟩
    · exact .inl ⟨rfl, rfl⟩

/-! ### All names of code -/

theorem mem_sortedSet {l : List String} : t ∈ sortedSet l ↔ t ∈ l := by
  rw [sortedSet, sorted, (mergeSort_perm _ _).mem_iff, distinct_eq, mem_eraseDups]

/-- The term begins with a letter. -/
def IsName (t : String) : Prop := t.toList.head?.any letters.holds = true

theorem isName_ofList (h : letters.holds c = true) (cs : List Char) :
    IsName (String.ofList (c :: cs)) := by
  rw [IsName, String.toList_ofList]
  exact h

theorem isName_of_camel? {rest : List Char} (h : camel? cs = some (t, rest)) : IsName t := by
  cases cs with
  | nil => cases h
  | cons c cs =>
    rw [camel?, Option.ite_none_right_eq_some] at h
    obtain ⟨⟨hc, -⟩, heq⟩ := h
    cases heq
    exact isName_ofList (letters_of_lowers hc) _

theorem isName_of_call? {rest : List Char} (h : call? cs = some (t, rest)) : IsName t := by
  cases cs with
  | nil => cases h
  | cons c cs =>
    rw [call?, Option.ite_none_right_eq_some] at h
    obtain ⟨hc, heq⟩ := h
    obtain ⟨behind, -, heq⟩ := Option.map_eq_some_iff.1 heq
    cases heq
    exact isName_ofList hc _

theorem isName_of_snake? {rest : List Char} {t : String × String}
    (h : snake? cs = some (t, rest)) : IsName t.1 ∧ ¬ IsName t.2 := by
  cases cs with
  | nil => cases h
  | cons c cs =>
    rw [snake?, Option.ite_none_right_eq_some] at h
    obtain ⟨hc, heq⟩ := h
    split at heq
    · cases heq
    · next more _ _ =>
        cases heq
        have hunderscore : ¬ letters.holds '_' = true := by decide
        refine ⟨isName_ofList (letters_of_lowers hc) _, ?_⟩
        rw [IsName, String.toList_ofList]
        cases more.getLast? with
        | none => exact Bool.false_ne_true
        | some part => exact hunderscore

/-- Of the words with underscores only the last parts are among the terms, so the terms are the
names of code in the text exactly when it has no such word. -/
theorem codeTerms_eq_names_iff (text : String) :
    ∃ camels snakes calls, Scan camel? text.toList camels ∧ Scan snake? text.toList snakes ∧
      Scan call? text.toList calls ∧
      (∀ t, t ∈ codeTerms text ↔ t ∈ camels ∨ t ∈ snakes.map (·.2) ∨ t ∈ calls) ∧
      ((∀ t, t ∈ codeTerms text ↔ t ∈ camels ∨ t ∈ snakes.map (·.1) ∨ t ∈ calls) ↔
        snakes = []) := by
  have hcamels := scan_findAll reads_camel text
  have hsnakes := scan_findAll reads_snake text
  have hcalls := scan_findAll reads_call text
  have hterms : ∀ t, t ∈ codeTerms text ↔ t ∈ (camelCase.findAll text).map Match.whole ∨
      t ∈ ((snakeCase.findAll text).map fun m => (m.whole, m.group 1)).map (·.2) ∨
      t ∈ (emptyCall.findAll text).map fun m => stripEndChars m.whole "()" := by
    intro t
    rw [codeTerms, mem_sortedSet, mem_append, mem_append, or_assoc, map_map]
    rfl
  refine ⟨_, _, _, hcamels, hsnakes, hcalls, hterms, fun hall => ?_, fun hnil => ?_⟩
  · refine eq_nil_iff_forall_not_mem.2 fun x hx => ?_
    have hname := hsnakes.forall_mem isName_of_snake?
    rcases (hall x.2).1 ((hterms x.2).2 (.inr (.inl (mem_map_of_mem hx)))) with ht | ht | ht
    · exact (hname x hx).2 (hcamels.forall_mem isName_of_camel? _ ht)
    · obtain ⟨y, hy, heq⟩ := mem_map.1 ht
      exact (hname x hx).2 (heq ▸ (hname y hy).1)
    · exact (hname x hx).2 (hcalls.forall_mem isName_of_call? _ ht)
  · intro t
    rw [hterms, hnil]
    rfl

theorem codeTerms_of_two_parts : "a_b" ∉ codeTerms "a_b" ∧ "" ∈ codeTerms "a_b" := by
  rw [codeTerms, mem_sortedSet, mem_sortedSet, camelCase_eq, snakeCase_eq, emptyCall_eq]
  decide +kernel

end CodeAtlas.Description

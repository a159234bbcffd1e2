import CodeAtlas.Pattern.Search
import CodeAtlas.Proofs.Text

/-!
# Following a pattern

What `Pattern.run` does at a position is told by the characters that stand
there, `cs.drop pos`. A repetition of one set of characters goes as far as the
set reaches (`run_rounds_char`); what follows decides which of the rounds are
given back (`tryDown_top`) or added (`tryUp_first`). A pattern that may be left
out is tried first (`run_optional`).

`Reads p shown front?` says that `front?`, which takes something off the front
of a text, finds what `p` finds. The matches in a text are then described
without positions: `Scan front? cs items` passes over the characters where
nothing is read and goes on behind what is read. `enclosed?` reads what stands
between two marks, as in `"name"`.
-/

namespace CodeAtlas

open List

variable {set : CharSet} {l after : List Char} {least start n : Nat} {nonempty : Bool}
  {r : Progress} (c : Char) (text : Array Char) (p : Pattern) (d : Char) {α : Type}
  {f : Nat → Option α} {a : α}

/-! ### Trying numbers of rounds -/

theorem tryDown_top (h : f (least + n) = some a) : tryDown least f n = some a := by
  cases n with
  | zero => exact h
  | succ n => rw [tryDown, h]

theorem tryDown_next (h : f (least + (n + 1)) = none) :
    tryDown least f (n + 1) = tryDown least f n := by
  rw [tryDown, h]

theorem tryDown_last (h : ∀ i < n, f (least + i) = none) : tryDown least f n = f (least + n) := by
  induction n with
  | zero => rfl
  | succ n ih =>
    have hbelow : tryDown least f n = none := by
      rw [ih fun i hi => h i (Nat.lt_succ_of_lt hi), h n (Nat.lt_succ_self n)]
    rw [tryDown, hbelow]
    cases f (least + (n + 1)) <;> rfl

theorem exists_of_tryDown (h : tryDown least f n = some a) : ∃ k ≤ n, f (least + k) = some a := by
  induction n with
  | zero => exact ⟨0, Nat.le_refl 0, h⟩
  | succ n ih =>
    rw [tryDown] at h
    split at h
    · next b hb =>
        obtain rfl := Option.some.inj h
        exact ⟨n + 1, Nat.le_refl _, hb⟩
    · obtain ⟨k, hk, hf⟩ := ih h
      exact ⟨k, Nat.le_succ_of_le hk, hf⟩

theorem isSome_tryDown {k : Nat} (hk : k ≤ n) (h : (f (least + k)).isSome) :
    (tryDown least f n).isSome := by
  induction n with
  | zero =>
    obtain rfl := Nat.le_zero.1 hk
    exact h
  | succ n ih =>
    rw [tryDown]
    cases hf : f (least + (n + 1)) with
    | some a => rfl
    | none =>
      rcases Nat.le_succ_iff.1 hk with hk | rfl
      · exact ih hk
      · rw [hf] at h
        cases h

theorem tryUp_first {k : Nat} (hk : k ≤ n) (hfail : ∀ i < k, f (least + i) = none)
    (h : f (least + k) = some a) : tryUp f least n = some a := by
  induction k generalizing least n with
  | zero =>
    cases n with
    | zero => exact h
    | succ n =>
      rw [tryUp]
      rw [Nat.add_zero] at h
      rw [h]
  | succ k ih =>
    obtain ⟨n, rfl⟩ : ∃ m, n = m + 1 := ⟨n - 1, by omega⟩
    have hleast : f least = none := hfail 0 (by omega)
    rw [tryUp, hleast]
    apply ih (by omega)
    · intro i hi
      have hnext := hfail (i + 1) (by omega)
      rwa [Nat.add_comm i 1, ← Nat.add_assoc] at hnext
    · rwa [Nat.add_comm k 1, ← Nat.add_assoc] at h

theorem CharItem.holds_range_self : CharItem.holds d (.range c c) = decide (d = c) := by
  rw [Bool.eq_iff_iff]
  simp only [CharItem.holds, Bool.and_eq_true, decide_eq_true_eq]
  constructor
  · exact fun h => Char.le_antisymm h.2 h.1
  · rintro rfl
    exact ⟨Char.le_refl _, Char.le_refl _⟩

/-! ### Sets of characters -/

def blankSet : CharSet := { items := [.blank false] }

def digitSet : CharSet := { items := [.digit false] }

def sameLineSet : CharSet := { items := [.range '\n' '\n'], negated := true }

def CharSet.except (c : Char) : CharSet := { items := [.range c c], negated := true }

theorem holds_blankSet : blankSet.holds c = Text.isBlank c := by
  simp [CharSet.holds, blankSet, CharItem.holds]

theorem holds_digitSet : digitSet.holds c = Text.isDecimal c := by
  simp [CharSet.holds, digitSet, CharItem.holds]

theorem holds_sameLineSet : sameLineSet.holds c = true ↔ c ≠ '\n' := by
  simp [CharSet.holds, sameLineSet, CharItem.holds_range_self]

theorem holds_single : (CharSet.single c).holds d = true ↔ d = c := by
  simp [CharSet.holds, CharSet.single, CharItem.holds_range_self]

theorem holds_except : (CharSet.except c).holds d = (d != c) := by
  rw [Bool.eq_iff_iff]
  simp [CharSet.holds, CharSet.except, CharItem.holds_range_self]

namespace Pattern

variable {cs : List Char} {pos : Nat} {captures : List Capture}
  {rest : Progress → Option Progress}

theorem charRun_eq (cs : List Char) (set : CharSet) (pos : Nat) :
    charRun cs.toArray set (cs.length - pos) pos = ((cs.drop pos).takeWhile set.holds).length := by
  induction hn : cs.length - pos generalizing pos with
  | zero =>
    rw [drop_eq_nil_of_le (by omega)]
    rfl
  | succ n ih =>
    have hpos : pos < cs.length := by omega
    have hchar : cs.toArray[pos]? = some cs[pos] := by simp [hpos]
    rw [charRun, hchar, drop_eq_getElem_cons hpos, takeWhile_cons]
    by_cases hset : set.holds cs[pos] = true
    · simp [hset, ih (pos + 1) (by omega)]
    · simp [hset]

theorem drop_next {c : Char} (h : cs.drop pos = c :: after) : cs.drop (pos + 1) = after := by
  rw [← drop_drop, h]
  rfl

theorem drop_add (h : cs.drop pos = l ++ after) : cs.drop (pos + l.length) = after := by
  rw [← drop_drop, h, drop_left]

theorem run_seq (q : Pattern) (rest : Progress → Option Progress) (st : Progress) :
    (seq p q).run text rest st = p.run text (q.run text rest) st := rfl

theorem run_alt (q : Pattern) (rest : Progress → Option Progress) (st : Progress) :
    (alt p q).run text rest st = (p.run text rest st).or (q.run text rest st) := by
  rw [run]
  cases p.run text rest st <;> rfl

theorem run_group (index : Nat) (rest : Progress → Option Progress) (st : Progress) :
    (group index p).run text rest st =
      p.run text (fun st' =>
        rest { st' with captures := ⟨index, st.pos, st'.pos⟩ :: st'.captures }) st := rfl

theorem run_char {c : Char} (h : cs.drop pos = c :: after) (set : CharSet) :
    (char set).run cs.toArray rest ⟨pos, captures⟩ =
      if set.holds c then rest ⟨pos + 1, captures⟩ else none := by
  have hchar : cs.toArray[pos]? = some c := by
    rw [getElem?_toArray, ← head?_drop, h, head?_cons]
  rw [run, hchar]

theorem run_char_end (h : cs.drop pos = []) (set : CharSet) :
    (char set).run cs.toArray rest ⟨pos, captures⟩ = none := by
  have hchar : cs.toArray[pos]? = none := by
    rw [getElem?_toArray, ← head?_drop, h, head?_nil]
  rw [run, hchar]

theorem exists_of_run_char (h : (char set).run cs.toArray rest ⟨pos, captures⟩ = some r) :
    ∃ c after, cs.drop pos = c :: after ∧ set.holds c = true ∧
      rest ⟨pos + 1, captures⟩ = some r := by
  cases hdrop : cs.drop pos with
  | nil =>
    rw [run_char_end hdrop] at h
    cases h
  | cons c after =>
    rw [run_char hdrop] at h
    split at h
    · next hc => exact ⟨c, after, rfl, hc, h⟩
    · cases h

theorem run_rounds_char (set : CharSet) (least : Nat) (greedy : Bool) :
    (rounds (.char set) least none greedy).run cs.toArray rest ⟨pos, captures⟩ =
      if ((cs.drop pos).takeWhile set.holds).length < least then none
      else if greedy then
        tryDown least (fun k => rest ⟨pos + k, captures⟩)
          (((cs.drop pos).takeWhile set.holds).length - least)
      else
        tryUp (fun k => rest ⟨pos + k, captures⟩) least
          (((cs.drop pos).takeWhile set.holds).length - least) := by
  rw [← charRun_eq]
  rfl

theorem takeWhile_append_stop {p : Char → Bool} (hl : ∀ c ∈ l, p c = true)
    (hafter : ∀ c, after.head? = some c → p c = false) : (l ++ after).takeWhile p = l := by
  rw [takeWhile_append_of_pos hl]
  cases after with
  | nil => simp
  | cons c after => simp [hafter c rfl]

theorem dropWhile_append_stop {p : Char → Bool} (hl : ∀ c ∈ l, p c = true)
    (hafter : ∀ c, after.head? = some c → p c = false) : (l ++ after).dropWhile p = after := by
  rw [dropWhile_append_of_pos hl]
  cases after with
  | nil => rfl
  | cons c after => simp [hafter c rfl]

/-- A greedy repetition takes all that its set reaches, if the rest succeeds behind it. -/
theorem run_rounds_char_greedy (hleast : least ≤ ((cs.drop pos).takeWhile set.holds).length)
    (hrest : rest ⟨pos + ((cs.drop pos).takeWhile set.holds).length, captures⟩ = some r) :
    (rounds (.char set) least none true).run cs.toArray rest ⟨pos, captures⟩ = some r := by
  rw [run_rounds_char, if_neg (Nat.not_lt.2 hleast), if_pos rfl]
  apply tryDown_top
  rwa [Nat.add_sub_cancel' hleast]

theorem run_rounds_char_all (h : cs.drop pos = l ++ after) (hl : ∀ c ∈ l, set.holds c = true)
    (hafter : ∀ c, after.head? = some c → set.holds c = false) (hleast : least ≤ l.length)
    (hrest : rest ⟨pos + l.length, captures⟩ = some r) :
    (rounds (.char set) least none true).run cs.toArray rest ⟨pos, captures⟩ = some r := by
  have htaken : (cs.drop pos).takeWhile set.holds = l := h ▸ takeWhile_append_stop hl hafter
  exact run_rounds_char_greedy (by rwa [htaken]) (by rwa [htaken])

/-- A greedy repetition gives nothing back if the rest fails in front of the characters of its
set. -/
theorem run_rounds_char_only
    (hrest : ∀ p c after, cs.drop p = c :: after → set.holds c = true → rest ⟨p, captures⟩ = none) :
    (rounds (.char set) least none true).run cs.toArray rest ⟨pos, captures⟩ =
      if ((cs.drop pos).takeWhile set.holds).length < least then none
      else rest ⟨pos + ((cs.drop pos).takeWhile set.holds).length, captures⟩ := by
  rw [run_rounds_char]
  split
  · rfl
  · next hlength =>
      rw [if_pos rfl, tryDown_last, Nat.add_sub_cancel' (Nat.not_lt.1 hlength)]
      intro i hi
      have hpos : least + i < ((cs.drop pos).takeWhile set.holds).length := by omega
      have hle : least + i < (cs.drop pos).length :=
        Nat.lt_of_lt_of_le hpos (takeWhile_sublist _).length_le
      have hholds : set.holds (cs.drop pos)[least + i] = true := by
        rw [← (List.takeWhile_prefix set.holds).getElem hpos]
        exact mem_takeWhile_imp (getElem_mem hpos)
      apply hrest _ (cs.drop pos)[least + i] ((cs.drop pos).drop (least + i + 1)) _ hholds
      rw [← drop_drop, drop_eq_getElem_cons hle]

theorem exists_of_run_rounds_char
    (h : (rounds (.char set) least none true).run cs.toArray rest ⟨pos, captures⟩ = some r) :
    ∃ l after, cs.drop pos = l ++ after ∧ (∀ c ∈ l, set.holds c = true) ∧ least ≤ l.length ∧
      rest ⟨pos + l.length, captures⟩ = some r := by
  rw [run_rounds_char] at h
  split at h
  · cases h
  · next hleast =>
      rw [if_pos rfl] at h
      obtain ⟨k, hk, hrest⟩ := exists_of_tryDown h
      have htaken := takeWhile_prefix (l := cs.drop pos) set.holds
      have hlength : ((cs.drop pos).take (least + k)).length = least + k := by
        have hle := htaken.length_le
        rw [length_take]
        omega
      have hfront : (cs.drop pos).take (least + k) <+: (cs.drop pos).takeWhile set.holds := by
        rw [prefix_iff_eq_take.1 htaken]
        exact take_prefix_take_left (by omega)
      exact ⟨(cs.drop pos).take (least + k), (cs.drop pos).drop (least + k),
        (take_append_drop _ _).symm,
        fun c hc => mem_takeWhile_imp (hfront.subset hc), by omega, by rwa [hlength]⟩

/-- A greedy repetition succeeds if the rest does behind one of its numbers of rounds. -/
theorem isSome_run_rounds_char_iff :
    ((rounds (.char set) 0 none true).run cs.toArray rest ⟨pos, captures⟩).isSome ↔
      ∃ l after, cs.drop pos = l ++ after ∧ (∀ c ∈ l, set.holds c = true) ∧
        (rest ⟨pos + l.length, captures⟩).isSome := by
  constructor
  · intro h
    obtain ⟨r, hr⟩ := Option.isSome_iff_exists.1 h
    obtain ⟨l, after, hdrop, hl, -, hrest⟩ := exists_of_run_rounds_char hr
    exact ⟨l, after, hdrop, hl, Option.isSome_of_eq_some hrest⟩
  · rintro ⟨l, after, hdrop, hl, hrest⟩
    rw [run_rounds_char, if_neg (Nat.not_lt_zero _), if_pos rfl]
    refine isSome_tryDown (k := l.length) ?_ (by rwa [Nat.zero_add])
    rw [hdrop, takeWhile_append_of_pos hl, length_append]
    omega

theorem run_rounds_char_none {greedy : Bool} (hleast : 0 < least)
    (h : ∀ c, (cs.drop pos).head? = some c → set.holds c = false) :
    (rounds (.char set) least none greedy).run cs.toArray rest ⟨pos, captures⟩ = none := by
  have htake : (cs.drop pos).takeWhile set.holds = [] := takeWhile_append_stop (l := []) (by simp) h
  rw [run_rounds_char, htake, length_nil, if_pos hleast]

theorem run_optional {p : Pattern} (hp : ∀ set, p ≠ .char set) (text : Array Char)
    (st : Progress) :
    (rounds p 0 (some 1) true).run text rest st = (p.run text rest st).or (rest st) := by
  have hdone : (fun st' => runRounds (p.run text) true rest (text.size - st.pos + 0 + 1) 0
      ((some 1).map (· - 1)) (some st.pos) st') = rest := by
    funext st'
    simp [runRounds]
  have hrun : (rounds p 0 (some 1) true).run text rest st =
      runRounds (p.run text) true rest (text.size - st.pos + 0 + 2) 0 (some 1) none st := by
    cases p with
    | char set => exact absurd rfl (hp set)
    | _ => rfl
  rw [hrun, runRounds, hdone]
  cases p.run text rest st <;> simp

theorem run_not_behind {before here : List Char} (h : cs = before ++ here) (set : CharSet) :
    (behind (.char set) 1 true).run cs.toArray rest ⟨before.length, captures⟩ =
      if before.getLast?.any set.holds then none else rest ⟨before.length, captures⟩ := by
  rcases eq_nil_or_concat before with rfl | ⟨init, c, rfl⟩
  · rfl
  · have hchar : cs[init.length]? = some c := by simp [h]
    cases hc : set.holds c <;> simp [run, hchar, hc]

theorem run_of_run_not_behind {p : Pattern} {width : Nat} {text : Array Char} {st : Progress}
    (h : (behind p width true).run text rest st = some r) : rest st = some r := by
  rw [run] at h
  split at h
  · cases h
  · exact h

/-! ### Searching -/

theorem searchFrom?_here {p : Pattern} {text : Array Char} {m : Match}
    (h : p.matchAt? text start nonempty = some m) (n : Nat) :
    p.searchFrom? text nonempty start n = some m := by
  cases n with
  | zero => exact h
  | succ n => rw [searchFrom?, h]

theorem searchFrom?_next {p : Pattern} {text : Array Char}
    (h : p.matchAt? text start nonempty = none) (n : Nat) :
    p.searchFrom? text nonempty start (n + 1) = p.searchFrom? text false (start + 1) n := by
  rw [searchFrom?, h]

theorem matchAt?_false (start : Nat) :
    p.matchAt? text start false = (p.run text some ⟨start, []⟩).map fun st =>
      { text := text, start := start, stop := st.pos, captures := st.captures } := rfl

theorem isEmpty_findAll (s : String) : (p.findAll s).isEmpty = !p.foundIn s := by
  rw [findAll, findAllFrom, if_neg (Nat.not_lt_zero _), foundIn, search?]
  dsimp only [Nat.sub_zero]
  cases p.searchFrom? s.toList.toArray false 0 s.toList.toArray.size <;> rfl

end Pattern

theorem Match.between_toArray {cs : List Char} {stop : Nat} (before after : List Char)
    (h : cs = before ++ (l ++ after)) (hstart : start = before.length)
    (hstop : stop = start + l.length) : Match.between cs.toArray start stop = String.ofList l := by
  rw [Match.between, h, hstop, hstart]
  simp

theorem Match.between_drop {cs : List Char} (h : cs.drop start = l ++ after) :
    Match.between cs.toArray start (start + l.length) = String.ofList l := by
  simp [Match.between, extract_eq_take_drop, h]

end CodeAtlas

namespace CodeAtlas.Pattern

open Text List

variable {text : Array Char} {c : Char} {pos : Nat} {m : Match}

/-- What a pattern finds at a position is what `front?` takes off the characters there. -/
structure Reads {α : Type} (p : Pattern) (shown : Match → α)
    (front? : List Char → Option (α × List Char)) : Prop where
  miss : ∀ {cs : List Char} {pos : Nat}, front? (cs.drop pos) = none →
    p.matchAt? cs.toArray pos false = none
  hit : ∀ {cs : List Char} {pos : Nat} {a : α} {rest : List Char},
    front? (cs.drop pos) = some (a, rest) →
      ∃ m, p.matchAt? cs.toArray pos false = some m ∧ shown m = a ∧ m.start = pos ∧
        pos < m.stop ∧ m.stop ≤ cs.length ∧ cs.drop m.stop = rest

theorem Reads.of_run {α : Type} {p : Pattern} {shown : Match → α}
    {front? : List Char → Option (α × List Char)}
    (h : ∀ (cs : List Char) (pos : Nat),
      (front? (cs.drop pos) = none ∧ p.run cs.toArray some ⟨pos, []⟩ = none) ∨
      ∃ l rest stop captures, cs.drop pos = l ++ rest ∧ l ≠ [] ∧ stop = pos + l.length ∧
        p.run cs.toArray some ⟨pos, []⟩ = some ⟨stop, captures⟩ ∧
        front? (cs.drop pos) = some (shown ⟨cs.toArray, pos, stop, captures⟩, rest)) :
    Reads p shown front? where
  miss {cs pos} hnone := by
    rcases h cs pos with ⟨-, hrun⟩ | ⟨_, _, _, _, _, _, _, _, hsome⟩
    · rw [matchAt?_false, hrun, Option.map_none]
    · cases hnone.symm.trans hsome
  hit {cs pos a rest} hsome := by
    rcases h cs pos with ⟨hnone, -⟩ | ⟨l, rest', _, captures, hdrop, hne, rfl, hrun, hfront⟩
    · cases hnone.symm.trans hsome
    · cases hsome.symm.trans hfront
      have hlength := congrArg length hdrop
      rw [length_drop, length_append] at hlength
      have hpos := length_pos_iff.2 hne
      refine ⟨_, by rw [matchAt?_false, hrun, Option.map_some], rfl, rfl, ?_, ?_, drop_add hdrop⟩
      · exact Nat.lt_add_of_pos_right hpos
      · dsimp only
        omega

/-- What is read from a text, from left to right and without overlap. -/
inductive Scan {α : Type} (front? : List Char → Option (α × List Char)) :
    List Char → List α → Prop where
  | done : Scan front? [] []
  | skip {c : Char} {cs : List Char} {items : List α} (h : front? (c :: cs) = none)
      (hrest : Scan front? cs items) : Scan front? (c :: cs) items
  | found {cs rest : List Char} {a : α} {items : List α} (h : front? cs = some (a, rest))
      (hrest : Scan front? rest items) : Scan front? cs (a :: items)

section

variable {α : Type} {front? : List Char → Option (α × List Char)} {cs : List Char} {items : List α}

theorem Scan.skip_append {l : List Char} (hl : ∀ c ∈ l, ∀ after, front? (c :: after) = none)
    (h : Scan front? cs items) : Scan front? (l ++ cs) items := by
  induction l with
  | nil => exact h
  | cons c l ih =>
    refine .skip (hl c mem_cons_self _) (ih fun d hd => ?_)
    exact hl d (mem_cons_of_mem _ hd)

variable {p : Pattern} {shown : Match → α}

theorem findAllFrom_skip (hpos : pos < text.size) (h : p.matchAt? text pos false = none)
    (bound : Nat) :
    p.findAllFrom text (bound + 1) pos false = p.findAllFrom text (bound + 1) (pos + 1) false := by
  have hsize : text.size - pos = text.size - (pos + 1) + 1 := by omega
  rw [findAllFrom, findAllFrom, if_neg (by omega), if_neg (by omega), hsize, searchFrom?_next h]

theorem findAllFrom_found (hpos : pos ≤ text.size) (h : p.matchAt? text pos false = some m)
    (hstart : m.start = pos) (hstop : pos < m.stop) (bound : Nat) :
    p.findAllFrom text (bound + 1) pos false = m :: p.findAllFrom text bound m.stop false := by
  have hne : (m.stop == m.start) = false := by
    rw [hstart]
    exact beq_false_of_ne (Nat.ne_of_gt hstop)
  rw [findAllFrom, if_neg (by omega), searchFrom?_here h]
  simp only [hne]

section

variable (hp : Reads p shown front?)
include hp

theorem findAllFrom_of_scan {bound : Nat}
    (h : Scan front? (cs.drop pos) items) (hpos : pos ≤ cs.length)
    (hbound : cs.length - pos < bound) :
    (p.findAllFrom cs.toArray bound pos false).map shown = items := by
  generalize hdrop : cs.drop pos = chars at h
  induction h generalizing pos bound with
  | done =>
    obtain ⟨bound, rfl⟩ : ∃ b, bound = b + 1 := ⟨bound - 1, by omega⟩
    have hend : pos = cs.length := Nat.le_antisymm hpos (drop_eq_nil_iff.1 hdrop)
    have hnone : p.matchAt? cs.toArray pos false = none := by
      cases hfront : front? (cs.drop pos) with
      | none => exact hp.miss hfront
      | some found =>
        obtain ⟨m, _, _, _, hlt, hle, _⟩ := hp.hit hfront
        omega
    have hsize : cs.toArray.size - pos = 0 := by simp [hend]
    rw [findAllFrom, if_neg (by simp [hend]), hsize, searchFrom?, hnone]
    rfl
  | skip hnone _ ih =>
    obtain ⟨bound, rfl⟩ : ∃ b, bound = b + 1 := ⟨bound - 1, by omega⟩
    have hlt : pos < cs.length := by
      by_contra hge
      rw [drop_eq_nil_of_le (Nat.not_lt.1 hge)] at hdrop
      exact absurd hdrop (by simp)
    rw [findAllFrom_skip (by simpa using hlt) (hp.miss (hdrop ▸ hnone))]
    exact ih hlt (by omega) (drop_next hdrop)
  | found hfront _ ih =>
    obtain ⟨bound, rfl⟩ : ∃ b, bound = b + 1 := ⟨bound - 1, by omega⟩
    obtain ⟨m, hm, hshown, hstart, hlt, hle, hrest⟩ := hp.hit (hdrop ▸ hfront)
    rw [findAllFrom_found (by simpa using hpos) hm hstart hlt, map_cons, hshown]
    exact congrArg _ (ih hle (by omega) hrest)

theorem findAll_of_scan {s : String}
    (h : Scan front? s.toList items) : (p.findAll s).map shown = items := by
  rw [findAll]
  exact findAllFrom_of_scan hp h (Nat.zero_le _) (by simp; omega)

theorem Reads.exists_scan (cs : List Char) : ∃ items, Scan front? cs items := by
  induction hn : cs.length using Nat.strongRecOn generalizing cs with
  | _ n ih =>
    cases hfront : front? cs with
    | some found =>
      have hstart : front? (cs.drop 0) = some found := hfront
      obtain ⟨m, -, -, -, hlt, hle, hrest⟩ := hp.hit hstart
      have hlength := congrArg length hrest
      rw [length_drop] at hlength
      obtain ⟨items, hitems⟩ := ih _ (by omega) found.2 rfl
      exact ⟨_, .found hfront hitems⟩
    | none =>
      cases cs with
      | nil => exact ⟨[], .done⟩
      | cons c cs =>
        obtain ⟨items, hitems⟩ := ih _ (by simp [← hn]) cs rfl
        exact ⟨items, .skip hfront hitems⟩

theorem scan_findAll (s : String) : Scan front? s.toList ((p.findAll s).map shown) := by
  obtain ⟨items, h⟩ := hp.exists_scan s.toList
  rwa [findAll_of_scan hp h]

end

theorem Scan.forall_mem {P : α → Prop} (h : Scan front? cs items)
    (hP : ∀ {cs a rest}, front? cs = some (a, rest) → P a) : ∀ a ∈ items, P a := by
  induction h with
  | done => simp
  | skip _ _ ih => exact ih
  | found hfront _ ih => exact forall_mem_cons.2 ⟨hP hfront, ih⟩

end

theorem search?_of_append {p : Pattern} {before here : List Char} {stop : Nat}
    {captures : List Capture} (hbefore : ∀ {l c r}, before = l ++ c :: r →
      p.run (before ++ here).toArray some ⟨l.length, []⟩ = none)
    (hrun : p.run (before ++ here).toArray some ⟨before.length, []⟩ = some ⟨stop, captures⟩) :
    p.search? (String.ofList (before ++ here)) =
      some ⟨(before ++ here).toArray, before.length, stop, captures⟩ := by
  have hfrom : ∀ r l, before = l ++ r → p.searchFrom? (before ++ here).toArray false l.length
      ((before ++ here).length - l.length) =
        some ⟨(before ++ here).toArray, before.length, stop, captures⟩ := by
    intro r
    induction r with
    | nil =>
      intro l hl
      rw [append_nil] at hl
      exact searchFrom?_here (by rw [matchAt?_false, ← hl, hrun, Option.map_some]) _
    | cons c r ih =>
      intro l hl
      have hrest := ih (l ++ [c]) (by simp [hl])
      have hlength : (before ++ here).length - l.length =
          (before ++ here).length - (l ++ [c]).length + 1 := by
        simp [hl]
        omega
      rw [hlength, searchFrom?_next (by rw [matchAt?_false, hbefore hl, Option.map_none])]
      simpa using hrest
  rw [search?, String.toList_ofList, size_toArray]
  exact hfrom before [] rfl

/-! ### Between two marks -/

/-- What stands between two marks at the front of a text, if it is not empty, and the rest. -/
def enclosed? (opening closing : Char) (cs : List Char) : Option (List Char × List Char) :=
  if cs.head? = some opening ∧ cs.tail.takeWhile (· != closing) ≠ [] ∧
      cs.tail.dropWhile (· != closing) ≠ [] then
    some (cs.tail.takeWhile (· != closing), (cs.tail.dropWhile (· != closing)).tail)
  else none

section

variable {opening closing : Char} {cs inner after : List Char}

@[simp] theorem enclosed?_nil (opening closing : Char) : enclosed? opening closing [] = none := by
  simp [enclosed?]

theorem enclosed?_of_ne (h : c ≠ opening) (closing : Char) (cs : List Char) :
    enclosed? opening closing (c :: cs) = none := by
  simp [enclosed?, h]

theorem enclosed?_of_not_mem (h : closing ∉ cs) (opening c : Char) :
    enclosed? opening closing (c :: cs) = none := by
  have hdrop : cs.dropWhile (· != closing) = [] :=
    dropWhile_eq_nil_iff.2 fun d hd => by simpa using ne_of_mem_of_not_mem hd h
  simp [enclosed?, hdrop]

@[simp] theorem enclosed?_empty (opening closing : Char) (cs : List Char) :
    enclosed? opening closing (opening :: closing :: cs) = none := by
  simp [enclosed?]

theorem takeWhile_ne_of_not_mem (h : closing ∉ cs) : cs.takeWhile (· != closing) = cs :=
  takeWhile_eq_self_iff.2 fun d hd => by simpa using ne_of_mem_of_not_mem hd h

theorem takeWhile_ne_append (hinner : closing ∉ inner) (after : List Char) :
    (inner ++ closing :: after).takeWhile (· != closing) = inner :=
  takeWhile_append_stop (fun d hd => by simpa using ne_of_mem_of_not_mem hd hinner) (by simp)

theorem enclosed?_append (hne : inner ≠ []) (hinner : closing ∉ inner) (opening : Char)
    (after : List Char) :
    enclosed? opening closing (opening :: (inner ++ closing :: after)) = some (inner, after) := by
  have hdrop : (inner ++ closing :: after).dropWhile (· != closing) = closing :: after := by
    rw [dropWhile_append_of_pos fun d hd => by simpa using ne_of_mem_of_not_mem hd hinner,
      dropWhile_cons_of_neg (by simp)]
  rw [enclosed?, tail_cons, takeWhile_ne_append hinner, hdrop, if_pos ⟨rfl, hne, by simp⟩,
    tail_cons]

theorem eq_of_enclosed? (h : enclosed? opening closing cs = some (inner, after)) :
    cs = opening :: (inner ++ closing :: after) ∧ inner ≠ [] ∧ closing ∉ inner := by
  cases cs with
  | nil => simp at h
  | cons c tail =>
    by_cases hc : c = opening
    · by_cases hmem : closing ∈ tail
      · obtain ⟨front, back, rfl, hfront⟩ := eq_append_cons_of_mem hmem
        subst hc
        by_cases hne : front = []
        · simp [hne] at h
        · rw [enclosed?_append hne hfront] at h
          obtain ⟨rfl, rfl⟩ := Prod.mk.inj (Option.some.inj h)
          exact ⟨rfl, hne, hfront⟩
      · simp [enclosed?_of_not_mem hmem] at h
    · simp [enclosed?_of_ne hc] at h

end

section

variable {set : CharSet} {cs : List Char} {pos : Nat} {captures : List Capture}
  {rest : Progress → Option Progress}

theorem run_single_none {p : Nat} {d : Char} {after : List Char} (h : cs.drop p = d :: after)
    (hd : d ≠ c) : (char (.single c)).run cs.toArray rest ⟨p, captures⟩ = none := by
  rw [run_char h, if_neg (by rwa [holds_single])]

theorem run_single_self {p : Nat} {after : List Char} (h : cs.drop p = c :: after) :
    (char (.single c)).run cs.toArray rest ⟨p, captures⟩ = rest ⟨p + 1, captures⟩ := by
  rw [run_char h, if_pos ((holds_single _ _).2 rfl)]

theorem run_word (word : List Char) :
    word.foldr (fun c next => (char (.single c)).run cs.toArray next) rest ⟨pos, captures⟩ =
      (dropStart? word (cs.drop pos)).bind fun _ => rest ⟨pos + word.length, captures⟩ := by
  induction word generalizing pos with
  | nil => simp [dropStart?]
  | cons c word ih =>
    rw [foldr_cons]
    cases hdrop : cs.drop pos with
    | nil => simp [run_char_end hdrop, dropStart?]
    | cons d after =>
      by_cases hcd : d = c
      · subst hcd
        rw [run_single_self hdrop, ih, drop_next hdrop]
        simp [dropStart?, Nat.add_comm, Nat.add_left_comm]
      · have hcd' : ¬ c = d := fun h => hcd h.symm
        simp [run_single_none hdrop hcd, dropStart?, hcd']

/-- A repetition is passed over, if the rest asks for a character outside of its set. -/
theorem run_rounds_single (hc : set.holds c = false) :
    (rounds (.char set) 0 none true).run cs.toArray
        ((char (.single c)).run cs.toArray rest) ⟨pos, captures⟩ =
      (char (.single c)).run cs.toArray rest
        ⟨pos + ((cs.drop pos).takeWhile set.holds).length, captures⟩ := by
  rw [run_rounds_char_only, if_neg (Nat.not_lt_zero _)]
  intro p d after hdrop hd
  apply run_single_none hdrop
  rintro rfl
  exact Bool.false_ne_true (hc.symm.trans hd)

/-- Blanks, as many as there are. -/
def blankRun : Pattern := .rounds (.char blankSet) 0 none true

theorem run_blanks (hc : isBlank c = false) :
    blankRun.run cs.toArray
        ((char (.single c)).run cs.toArray rest) ⟨pos, captures⟩ =
      (char (.single c)).run cs.toArray rest
        ⟨pos + ((cs.drop pos).takeWhile isBlank).length, captures⟩ := by
  have hset : blankSet.holds = isBlank := funext holds_blankSet
  rw [← hset]
  exact run_rounds_single (hset ▸ hc)

/-- What stands in front of a closing mark, remembered as a group. -/
def inside (index : Nat) (closing : Char) : Pattern :=
  .group index (.rounds (.char (.except closing)) 1 none true)

/-- A pattern for what stands between two marks finds what `enclosed?` finds. -/
theorem run_enclosed (index : Nat) (opening closing : Char) :
    (char (.single opening)).run cs.toArray
        ((inside index closing).run cs.toArray
          ((char (.single closing)).run cs.toArray rest)) ⟨pos, captures⟩ =
      (enclosed? opening closing (cs.drop pos)).bind fun found =>
        rest ⟨pos + 1 + found.1.length + 1,
          ⟨index, pos + 1, pos + 1 + found.1.length⟩ :: captures⟩ := by
  have hset : (CharSet.except closing).holds = (· != closing) := funext (holds_except closing)
  cases hdrop : cs.drop pos with
  | nil => rw [run_char_end hdrop, enclosed?_nil, Option.bind_none]
  | cons c after =>
    by_cases hc : c = opening
    · subst hc
      have hafter : cs.drop (pos + 1) = after := drop_next hdrop
      rw [run_single_self hdrop, inside, run_group, run_rounds_char_only, hafter, hset]
      · by_cases hmem : closing ∈ after
        · obtain ⟨inner, back, hsplit, hinner⟩ := eq_append_cons_of_mem hmem
          have hback : cs.drop (pos + 1 + inner.length) = closing :: back :=
            drop_add (hafter.trans hsplit)
          rw [hsplit, takeWhile_ne_append hinner]
          by_cases hne : inner = []
          · subst hne
            rw [nil_append, enclosed?_empty, Option.bind_none, if_pos (by simp)]
          · have hlength : ¬ inner.length < 1 := by simpa [Nat.lt_one_iff] using hne
            rw [if_neg hlength, run_single_self hback, enclosed?_append hne hinner,
              Option.bind_some]
        · have hend : cs.drop (pos + 1 + after.length) = [] := by
            rw [← drop_drop, hafter, drop_length]
          rw [takeWhile_ne_of_not_mem hmem, enclosed?_of_not_mem hmem, Option.bind_none,
            run_char_end hend, ite_self]
      · intro p d rest' hp hd
        apply run_single_none hp
        simpa [hset] using hd
    · rw [run_single_none hdrop hc, enclosed?_of_ne hc, Option.bind_none]

end

/-! ### Matches without overlap -/

/-- What is found from left to right without overlap: always the first find at or behind the end of
the one before. -/
inductive Leftmost {β : Type} (found : Nat → β → Prop) (stop : β → Nat) : Nat → List β → Prop where
  | done {pos : Nat} (h : ∀ s, pos ≤ s → ∀ b, ¬ found s b) : Leftmost found stop pos []
  | next {pos s : Nat} {b : β} {l : List β} (hpos : pos ≤ s) (hb : found s b)
      (hfirst : ∀ s', pos ≤ s' → s' < s → ∀ b', ¬ found s' b')
      (hrest : Leftmost found stop (stop b) l) : Leftmost found stop pos (b :: l)

section

variable {β γ : Type} {found : Nat → β → Prop} {stop : β → Nat} {pos : Nat} {l : List β}

theorem Leftmost.found_of_mem (h : Leftmost found stop pos l) {b : β} (hb : b ∈ l) :
    ∃ s, found s b := by
  induction h with
  | done => cases hb
  | next _ hfound _ _ ih =>
    rcases mem_cons.1 hb with rfl | hb
    · exact ⟨_, hfound⟩
    · exact ih hb

theorem Leftmost.mem (h : Leftmost found stop pos l) {s : Nat} {b : β} (hs : pos ≤ s)
    (hb : found s b) (hunique : ∀ b', found s b' → b' = b)
    (hapart : ∀ s' b', s' < s → found s' b' → stop b' ≤ s) : b ∈ l := by
  induction h with
  | done hnone => exact absurd hb (hnone s hs b)
  | @next pos t b' l hpos hb' hfirst _ ih =>
    rcases Nat.lt_trichotomy s t with hlt | rfl | hlt
    · exact absurd hb (hfirst s hs hlt b)
    · rw [hunique b' hb']
      exact mem_cons_self
    · exact mem_cons_of_mem _ (ih (hapart t b' hlt hb'))

theorem Leftmost.map {found' : Nat → γ → Prop} {stop' : γ → Nat} {g : β → γ}
    (hto : ∀ s b, found s b → found' s (g b) ∧ stop' (g b) = stop b)
    (hof : ∀ s c, found' s c → ∃ b, found s b) (h : Leftmost found stop pos l) :
    Leftmost found' stop' pos (l.map g) := by
  have hnone : ∀ s, (∀ b, ¬ found s b) → ∀ c, ¬ found' s c := by
    intro s hs c hc
    obtain ⟨b, hb⟩ := hof s c hc
    exact hs b hb
  induction h with
  | done h => exact .done fun s hs => hnone s (h s hs)
  | next hpos hb hfirst _ ih =>
    refine .next hpos (hto _ _ hb).1 (fun s hs hlt => hnone s (hfirst s hs hlt)) ?_
    rw [(hto _ _ hb).2]
    exact ih

variable {p : Pattern} {text : Array Char}

theorem start_of_matchAt? {start : Nat} {nonempty : Bool}
    (h : p.matchAt? text start nonempty = some m) : m.start = start := by
  obtain ⟨st, _, rfl⟩ := Option.map_eq_some_iff.1 h
  rfl

theorem searchFrom?_cases (p : Pattern) (text : Array Char) (start n : Nat) :
    (∃ m, p.searchFrom? text false start n = some m ∧ start ≤ m.start ∧
        p.matchAt? text m.start false = some m ∧
        ∀ s, start ≤ s → s < m.start → p.matchAt? text s false = none) ∨
      p.searchFrom? text false start n = none ∧
        ∀ s, start ≤ s → s ≤ start + n → p.matchAt? text s false = none := by
  have hhere : ∀ {start m n}, p.matchAt? text start false = some m →
      p.searchFrom? text false start n = some m ∧ start ≤ m.start ∧
        p.matchAt? text m.start false = some m ∧
        ∀ s, start ≤ s → s < m.start → p.matchAt? text s false = none := by
    intro start m n hm
    obtain rfl := start_of_matchAt? hm
    exact ⟨searchFrom?_here hm n, Nat.le_refl _, hm, fun s h h' => by omega⟩
  induction n generalizing start with
  | zero =>
    cases hm : p.matchAt? text start false with
    | some m => exact .inl ⟨m, hhere hm⟩
    | none => exact .inr ⟨hm, fun s h h' => by rwa [show s = start by omega]⟩
  | succ n ih =>
    cases hm : p.matchAt? text start false with
    | some m => exact .inl ⟨m, hhere hm⟩
    | none =>
      have hskip : ∀ s, start ≤ s → (start + 1 ≤ s → p.matchAt? text s false = none) →
          p.matchAt? text s false = none := by
        intro s hs hnext
        rcases Nat.eq_or_lt_of_le hs with rfl | hlt
        · exact hm
        · exact hnext hlt
      rw [searchFrom?_next hm]
      rcases ih (start + 1) with ⟨m, hsome, hstart, hat, hfirst⟩ | ⟨hnone, hall⟩
      · exact .inl ⟨m, hsome, by omega, hat, fun s h h' => hskip s h fun h => hfirst s h h'⟩
      · exact .inr ⟨hnone, fun s h h' => hskip s h fun h => hall s h (by omega)⟩

theorem leftmost_findAll {s : String}
    (hp : ∀ pos m, p.matchAt? s.toList.toArray pos false = some m →
      pos < m.stop ∧ m.stop ≤ s.toList.length) :
    Leftmost (fun pos m => p.matchAt? s.toList.toArray pos false = some m) Match.stop 0
      (p.findAll s) := by
  have hfrom : ∀ bound pos, s.toList.length - pos < bound → pos ≤ s.toList.length →
      Leftmost (fun pos m => p.matchAt? s.toList.toArray pos false = some m) Match.stop pos
        (p.findAllFrom s.toList.toArray bound pos false) := by
    intro bound
    induction bound with
    | zero => intro pos hbound; omega
    | succ bound ih =>
      intro pos hbound hpos
      rw [findAllFrom, if_neg (by simpa using hpos)]
      rcases searchFrom?_cases p s.toList.toArray pos (s.toList.toArray.size - pos) with
        ⟨m, hm, hstart, hat, hfirst⟩ | ⟨hnone, hall⟩
      · obtain ⟨hlt, hle⟩ := hp _ m hat
        have hne : (m.stop == m.start) = false := beq_false_of_ne (Nat.ne_of_gt hlt)
        rw [hm]
        simp only [hne]
        refine .next hstart hat (fun s hs hlt b hb => ?_) (ih m.stop (by omega) hle)
        rw [hfirst s hs hlt] at hb
        cases hb
      · rw [hnone]
        refine .done fun t ht m hm => ?_
        have hlt := hp t m hm
        rw [hall t ht (by simp; omega)] at hm
        cases hm
  exact hfrom _ 0 (by simp; omega) (Nat.zero_le _)

end

end CodeAtlas.Pattern

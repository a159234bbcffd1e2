import CodeAtlas.Proofs.Dot.Graph
import CodeAtlas.Proofs.Pattern

/-!
# Nodes and arrows of a text

Nodes and arrows are found by two scans over the whole text, and any two
neighbouring quotes may be taken for those around a name. Both begin with a name
in quotes and differ in what must follow it, so `named?` has that as a parameter:
`attributes?` for nodes and `target?` for arrows.

A quote that closes a name may open another one, up to the next quote of the
text. `Onward next? cs items` is what a part of the text must know of the rest
`cs` behind it: the items read from there, and that no quote before `cs` begins
an item that reaches into `cs`. It is built from the end of the text, quote by
quote.

File and line of a function are found by three searches: for the label among the
attributes, for the file behind the line break of the label, and for the digits
behind a colon. Each search stops at the first place where its pattern fits, so
each lemma asks that it does not fit earlier.
-/

namespace CodeAtlas.Dot

open Pattern Text List Option

/-- A name in quotes at the front of a text, with what `next?` reads behind it. -/
def named? (next? : List Char → Option (String × List Char)) (cs : List Char) :
    Option ((String × String) × List Char) :=
  (enclosed? '"' '"' cs).bind fun name =>
    (next? name.2).map fun found => ((String.ofList name.1, found.1), found.2)

def attributes? (cs : List Char) : Option (String × List Char) :=
  (enclosed? '[' ']' (cs.dropWhile isBlank)).map fun found => (String.ofList found.1, found.2)

def target? (cs : List Char) : Option (String × List Char) :=
  (dropStart? ['-', '>'] (cs.dropWhile isBlank)).bind fun behind =>
    (enclosed? '"' '"' (behind.dropWhile isBlank)).map fun found =>
      (String.ofList found.1, found.2)

theorem nodePattern_eq : nodePattern =
    .seq (.seq (.seq (.seq (.seq (.seq (.char (.single '"')) (inside 1 '"')) (.char (.single '"')))
      blankRun) (.char (.single '['))) (inside 2 ']')) (.char (.single ']')) := by
  decide +kernel

theorem arrowPattern_eq : arrowPattern =
    .seq (.seq (.seq (.seq (.seq (.seq (.seq (.seq (.seq (.char (.single '"')) (inside 1 '"'))
      (.char (.single '"'))) blankRun) (.char (.single '-'))) (.char (.single '>'))) blankRun)
      (.char (.single '"'))) (inside 2 '"')) (.char (.single '"')) := by
  decide +kernel

theorem drop_blanks {cs : List Char} {pos : Nat} {after : List Char} (h : cs.drop pos = after) :
    cs.drop (pos + (after.takeWhile isBlank).length) = after.dropWhile isBlank := by
  apply drop_add
  rw [h, takeWhile_append_dropWhile]

theorem drop_enclosed {cs inner after : List Char} {pos : Nat} {opening closing : Char}
    (h : cs.drop pos = opening :: (inner ++ closing :: after)) :
    cs.drop (pos + 1) = inner ++ closing :: after ∧ cs.drop (pos + 1 + inner.length + 1) = after :=
  ⟨drop_next h, drop_next (drop_add (drop_next h))⟩

/-- Behind a name, `next` finds what `next?` takes off the characters there: it stands in front of
a closing mark and is remembered as the second group. -/
def Follows (next : Array Char → Progress → Option Progress)
    (next? : List Char → Option (String × List Char)) : Prop :=
  ∀ (cs : List Char) (pos : Nat) (captures : List Capture),
    (next? (cs.drop pos) = none ∧ next cs.toArray ⟨pos, captures⟩ = none) ∨
    ∃ l inner closing after, cs.drop pos = l ++ (inner ++ closing :: after) ∧
      next cs.toArray ⟨pos, captures⟩ = some ⟨pos + l.length + inner.length + 1,
        ⟨2, pos + l.length, pos + l.length + inner.length⟩ :: captures⟩ ∧
      next? (cs.drop pos) = some (String.ofList inner, after)

variable {next : Array Char → Progress → Option Progress}
  {next? : List Char → Option (String × List Char)}

theorem follows_enclosed {opening closing : Char} (hopening : isBlank opening = false) :
    Follows (fun text => blankRun.run text ((Pattern.char (.single opening)).run text
        ((inside 2 closing).run text ((Pattern.char (.single closing)).run text some))))
      fun cs => (enclosed? opening closing (cs.dropWhile isBlank)).map fun found =>
        (String.ofList found.1, found.2) := by
  intro cs pos captures
  dsimp only
  rw [run_blanks hopening, run_enclosed, drop_blanks rfl]
  cases hfound : enclosed? opening closing ((cs.drop pos).dropWhile isBlank) with
  | none => exact .inl ⟨rfl, rfl⟩
  | some found =>
    refine .inr ⟨(cs.drop pos).takeWhile isBlank ++ [opening], found.1, closing, found.2,
      ?_, ?_, rfl⟩
    · rw [append_assoc, singleton_append, ← (eq_of_enclosed? hfound).1, takeWhile_append_dropWhile]
    · rw [bind_some, length_append, length_singleton, ← Nat.add_assoc]

theorem Follows.shaft (h : Follows next next?) :
    Follows (fun text => blankRun.run text
        ((Pattern.char (.single '-')).run text ((Pattern.char (.single '>')).run text (next text))))
      fun cs => (dropStart? ['-', '>'] (cs.dropWhile isBlank)).bind next? := by
  intro cs pos captures
  have hword : ∀ pos, (Pattern.char (.single '-')).run cs.toArray
      ((Pattern.char (.single '>')).run cs.toArray (next cs.toArray)) ⟨pos, captures⟩ =
        (dropStart? ['-', '>'] (cs.drop pos)).bind fun _ => next cs.toArray ⟨pos + 2, captures⟩ :=
    fun _ => run_word ['-', '>']
  dsimp only
  rw [run_blanks (by decide), hword, drop_blanks rfl]
  cases hshaft : dropStart? ['-', '>'] ((cs.drop pos).dropWhile isBlank) with
  | none => exact .inl ⟨rfl, rfl⟩
  | some behind =>
    have hsplit := eq_append_of_dropStart? hshaft
    have hbehind : cs.drop (pos + ((cs.drop pos).takeWhile isBlank).length + 2) = behind :=
      drop_add ((drop_blanks rfl).trans hsplit)
    rcases h cs (pos + ((cs.drop pos).takeWhile isBlank).length + 2) captures with
      ⟨hnone, hrun⟩ | ⟨l, inner, closing, after, hl, hrun, hsome⟩
    · exact .inl ⟨hbehind ▸ hnone, hrun⟩
    · refine .inr ⟨(cs.drop pos).takeWhile isBlank ++ '-' :: '>' :: l, inner, closing, after, ?_,
        hrun.trans ?_, hbehind ▸ hsome⟩
      · rw [append_assoc, cons_append, cons_append, ← hl, hbehind]
        exact (takeWhile_append_dropWhile.symm.trans (congrArg _ hsplit))
      · simp only [length_append, length_cons, Nat.add_assoc, Nat.add_comm 2]

theorem reads_named {p : Pattern} (hnext : Follows next next?)
    (hp : ∀ text st, p.run text some st = (Pattern.char (.single '"')).run text
      ((inside 1 '"').run text ((Pattern.char (.single '"')).run text (next text))) st) :
    Reads p (fun m => (m.group 1, m.group 2)) (named? next?) := by
  refine .of_run fun cs pos => ?_
  rw [hp, run_enclosed, named?]
  cases hname : enclosed? '"' '"' (cs.drop pos) with
  | none => exact .inl ⟨rfl, rfl⟩
  | some name =>
    have hdrop := (eq_of_enclosed? hname).1
    have hbehind := (drop_enclosed hdrop).2
    rw [bind_some, bind_some, ← hbehind]
    rcases hnext cs (pos + 1 + name.1.length + 1) [⟨1, pos + 1, pos + 1 + name.1.length⟩] with
      ⟨hnone, hrun⟩ | ⟨l, inner, closing, after, hl, hrun, hsome⟩
    · exact .inl ⟨hnone ▸ rfl, hrun⟩
    · have htext : cs.drop pos =
          '"' :: (name.1 ++ '"' :: (l ++ (inner ++ [closing]))) ++ after := by
        rw [hdrop, ← hbehind, hl]
        simp
      refine .inr ⟨_, after, _, _, htext, cons_ne_nil _ _, ?_, hrun, ?_⟩
      · simp only [length_append, length_cons, length_nil]
        omega
      · rw [hsome]
        exact congrArg some (Prod.ext (Prod.ext (Match.between_drop (drop_enclosed hdrop).1).symm
          (Match.between_drop (drop_add hl)).symm) rfl)

theorem reads_node : Reads nodePattern (fun m => (m.group 1, m.group 2)) (named? attributes?) :=
  reads_named (follows_enclosed (by decide)) fun text st => by
    rw [nodePattern_eq]
    rfl

theorem reads_arrow : Reads arrowPattern (fun m => (m.group 1, m.group 2)) (named? target?) :=
  reads_named (follows_enclosed (by decide)).shaft fun text st => by
    rw [arrowPattern_eq]
    rfl

/-! ### From quote to quote -/

section

variable {cs s after : List Char} {b : String}

theorem named?_of_ne {c : Char} (h : c ≠ '"') (cs : List Char) : named? next? (c :: cs) = none := by
  rw [named?, enclosed?_of_ne h, bind_none]

theorem named?_of_not_mem (h : '"' ∉ cs) : named? next? ('"' :: cs) = none := by
  rw [named?, enclosed?_of_not_mem h, bind_none]

theorem named?_eq_none (hs : '"' ∉ s) (h : next? cs = none) :
    named? next? ('"' :: (s ++ '"' :: cs)) = none := by
  by_cases hne : s = []
  · rw [named?, hne, nil_append, enclosed?_empty, bind_none]
  · rw [named?, enclosed?_append hne hs, bind_some, h, map_none]

theorem named?_eq_some (hne : s ≠ []) (hs : '"' ∉ s) (h : next? cs = some (b, after)) :
    named? next? ('"' :: (s ++ '"' :: cs)) = some ((String.ofList s, b), after) := by
  rw [named?, enclosed?_append hne hs, bind_some, h, map_some]

/-- The rest of a text with the items read from it, into which no quote before it reaches. -/
structure Onward (next? : List Char → Option (String × List Char)) (cs : List Char)
    (items : List (String × String)) : Prop where
  scan : Scan (named? next?) cs items
  apart : ∀ s, '"' ∉ s → named? next? ('"' :: (s ++ cs)) = none

variable {items : List (String × String)}

theorem Onward.plain (h : Onward next? cs items) (hs : '"' ∉ s) : Onward next? (s ++ cs) items where
  scan := h.scan.skip_append fun _ hc after => named?_of_ne (ne_of_mem_of_not_mem hc hs) after
  apart := by
    intro s' hs'
    rw [← append_assoc]
    exact h.apart _ (by simp [hs, hs'])

theorem onward_last (hs : '"' ∉ s) : Onward next? s [] where
  scan := by
    rw [← append_nil s]
    exact Scan.done.skip_append fun _ hc after => named?_of_ne (ne_of_mem_of_not_mem hc hs) after
  apart := fun s' hs' => named?_of_not_mem (by simp [hs, hs'])

theorem Onward.quote (h : Onward next? cs items) (hnext : next? cs = none) :
    Onward next? ('"' :: cs) items where
  scan := .skip (h.apart [] (by simp)) h.scan
  apart := fun _ hs => named?_eq_none hs hnext

/-- A name in quotes is passed over. -/
theorem Onward.passed (h : Onward next? cs items) (hs : '"' ∉ s) (hcs : next? cs = none)
    (hnext : next? (s ++ '"' :: cs) = none) : Onward next? ('"' :: (s ++ '"' :: cs)) items :=
  ((h.quote hcs).plain hs).quote hnext

theorem Onward.empty (h : Onward next? cs items) (hnext : next? ('"' :: cs) = none) :
    Onward next? ('"' :: '"' :: cs) items where
  scan := by
    refine .skip ?_ (.skip (h.apart [] (by simp)) h.scan)
    rw [named?, enclosed?_empty, bind_none]
  apart := fun _ hs => named?_eq_none hs hnext

/-- A name that goes on is read, up to the end of what `next?` reads. -/
theorem Onward.found (h : Onward next? after items) (hne : s ≠ []) (hs : '"' ∉ s)
    (hitem : next? cs = some (b, after)) (hnext : next? (s ++ '"' :: cs) = none) :
    Onward next? ('"' :: (s ++ '"' :: cs)) ((String.ofList s, b) :: items) where
  scan := .found (named?_eq_some hne hs hitem) h.scan
  apart := fun _ hs' => named?_eq_none hs' hnext

theorem flatMap_lines {α : Type} {P : List Char → List (String × String) → Prop} (l : List α)
    (line : α → List Char) (shown : α → List (String × String))
    (hl : ∀ x ∈ l, ∀ {cs items}, P cs items → P (line x ++ cs) (shown x ++ items))
    (h : P cs items) : P (l.flatMap line ++ cs) (l.flatMap shown ++ items) := by
  induction l with
  | nil => exact h
  | cons x l ih =>
    rw [flatMap_cons, flatMap_cons, append_assoc, append_assoc]
    exact hl x mem_cons_self (ih fun y hy => hl y (mem_cons_of_mem _ hy))

theorem flatMap_passed {α : Type} {P : List Char → Prop} (l : List α) (line : α → List Char)
    (hl : ∀ x ∈ l, ∀ {cs}, P cs → P (line x ++ cs)) (h : P cs) : P (l.flatMap line ++ cs) :=
  @flatMap_lines cs [] α (fun cs _ => P cs) l line (fun _ => []) (fun x hx _ _ => hl x hx) h

end

/-! ### What follows a name -/

section

variable {m after : List Char} {c d : Char}

theorem dropWhile_isBlank_append (hblank : isBlank c = false) (m after : List Char) :
    (m ++ c :: after).dropWhile isBlank = m.dropWhile isBlank ++ c :: after := by
  induction m with
  | nil => simp [hblank]
  | cons e m ih => cases he : isBlank e <;> simp [he, ih]

theorem head?_dropWhile_ne (hm : d ∉ m) (hc : c ≠ d) (hblank : isBlank c = false)
    (after : List Char) : ((m ++ c :: after).dropWhile isBlank).head? ≠ some d := by
  rw [dropWhile_isBlank_append hblank]
  cases hdrop : m.dropWhile isBlank with
  | nil => simpa using hc
  | cons e rest =>
    have he : e ∈ m := (dropWhile_suffix _).subset (hdrop ▸ mem_cons_self)
    simpa using ne_of_mem_of_not_mem he hm

theorem attributes?_eq_none (hm : '[' ∉ m) (hc : c ≠ '[') (hblank : isBlank c = false)
    (after : List Char) : attributes? (m ++ c :: after) = none := by
  have hhead := head?_dropWhile_ne hm hc hblank after
  rw [attributes?, enclosed?, if_neg fun h => hhead h.1, map_none]

theorem attributes?_brackets {inner : List Char} (hne : inner ≠ []) (hinner : ']' ∉ inner)
    (after : List Char) :
    attributes? (' ' :: '[' :: (inner ++ ']' :: after)) = some (String.ofList inner, after) := by
  have hdrop : (' ' :: '[' :: (inner ++ ']' :: after)).dropWhile isBlank =
      '[' :: (inner ++ ']' :: after) := rfl
  rw [attributes?, hdrop, enclosed?_append hne hinner, map_some]

theorem target?_eq_none (hm : '-' ∉ m) (hc : c ≠ '-') (hblank : isBlank c = false)
    (after : List Char) : target? (m ++ c :: after) = none := by
  have hhead := head?_dropWhile_ne hm hc hblank after
  cases hshaft : dropStart? ['-', '>'] ((m ++ c :: after).dropWhile isBlank) with
  | none => rw [target?, hshaft, bind_none]
  | some behind =>
    rw [eq_append_of_dropStart? hshaft] at hhead
    exact absurd rfl hhead

theorem target?_shaft (cs : List Char) : target? (' ' :: '-' :: '>' :: ' ' :: '"' :: cs) =
    (enclosed? '"' '"' ('"' :: cs)).map fun found => (String.ofList found.1, found.2) := by
  have hdrop : (' ' :: '-' :: '>' :: ' ' :: '"' :: cs).dropWhile isBlank =
      ['-', '>'] ++ ' ' :: '"' :: cs := rfl
  have hdrop' : (' ' :: '"' :: cs).dropWhile isBlank = '"' :: cs := rfl
  rw [target?, hdrop, dropStart?_append, bind_some, hdrop']

theorem target?_shaft_name {name : List Char} (hne : name ≠ []) (hname : '"' ∉ name)
    (after : List Char) :
    target? (' ' :: '-' :: '>' :: ' ' :: '"' :: (name ++ '"' :: after)) =
      some (String.ofList name, after) := by
  rw [target?_shaft, enclosed?_append hne hname, map_some]

theorem target?_shaft_empty (after : List Char) :
    target? (' ' :: '-' :: '>' :: ' ' :: '"' :: '"' :: after) = none := by
  rw [target?_shaft, enclosed?_empty, map_none]

theorem shaft_of_target? (hm : '"' ∉ m) {found : String × List Char}
    (h : target? (m ++ '"' :: after) = some found) :
    ∃ l r, m = l ++ (['-', '>'] ++ r) ∧ (∀ c ∈ l, isBlank c = true) ∧
      ∀ c ∈ r, isBlank c = true := by
  obtain ⟨behind, hshaft, hquote⟩ := bind_eq_some_iff.1 h
  obtain ⟨name, hname, -⟩ := map_eq_some_iff.1 hquote
  have hsplit := eq_append_of_dropStart? hshaft
  rw [dropWhile_isBlank_append (by decide)] at hsplit
  obtain ⟨r, hr, hbehind⟩ : ∃ r, m.dropWhile isBlank = ['-', '>'] ++ r ∧
      behind = r ++ '"' :: after := by
    rcases append_eq_append_iff.1 hsplit with ⟨l, hl, hquote⟩ | ⟨r, hr, hbehind⟩
    · cases l with
      | nil => exact ⟨[], by simpa using hl.symm, by simpa using hquote.symm⟩
      | cons e l =>
        obtain ⟨rfl, -⟩ := cons.inj hquote
        have he : '"' ∈ ['-', '>'] := by simp [hl]
        exact absurd he (by decide)
    · exact ⟨r, hr, hbehind⟩
  have hblank : r.dropWhile isBlank = [] := by
    have henclosed := (eq_of_enclosed? hname).1
    rw [hbehind, dropWhile_isBlank_append (by decide)] at henclosed
    cases hdrop : r.dropWhile isBlank with
    | nil => rfl
    | cons e rest =>
      rw [hdrop, cons_append] at henclosed
      have he : e ∈ m.dropWhile isBlank := by
        rw [hr]
        exact mem_append_right _
          ((dropWhile_suffix _).subset (hdrop ▸ mem_cons_self))
      exact absurd ((cons.inj henclosed).1 ▸ (dropWhile_suffix _).subset he) hm
  refine ⟨m.takeWhile isBlank, r, ?_, ?_, ?_⟩
  · rw [← hr, takeWhile_append_dropWhile]
  · exact fun c hc => mem_takeWhile_imp hc
  · exact dropWhile_eq_nil_iff.1 hblank

end

/-! ### The two scans -/

theorem nodes_of_onward {text : String} {items : List (String × String)}
    (h : Onward attributes? text.toList items) : nodes text = items.filterMap box? := by
  rw [nodes_eq, findAll_of_scan reads_node h.scan]

theorem arrows_of_onward {text : String} {items : List (String × String)}
    (h : Onward target? text.toList items) : arrows text = items :=
  findAll_of_scan reads_arrow h.scan

/-! ### The place in a label -/

theorem labelPattern_eq : labelPattern =
    .seq (.seq (.seq (.seq (.seq (.seq (.seq (.seq (.char (.single 'l')) (.char (.single 'a')))
      (.char (.single 'b'))) (.char (.single 'e'))) (.char (.single 'l'))) (.char (.single '=')))
      (.char (.single '"'))) (inside 1 '"'))
      (.char (.single '"')) := by
  decide +kernel

theorem filePattern_eq : filePattern =
    .seq (.seq (.seq (.char (.single '\\')) (.char (.single 'n')))
      (.group 1 (.rounds (.char sameLineSet) 0 none false))) (.char (.single ':')) := by
  decide +kernel

theorem lineNumberPattern_eq : lineNumberPattern =
    .seq (.seq (.char (.single ':'))
      (.rounds (.group 1 (.seq (.char (.single '\\')) (.char (.single 'n')))) 0 (some 1) true))
      (.group 2 (.rounds (.char digitSet) 1 none true)) := by
  decide +kernel

section

variable {cs : List Char}

theorem drop_length_append (l : List Char) (c : Char) (r here : List Char) :
    (l ++ c :: r ++ here).drop l.length = c :: (r ++ here) := by
  simp

def labelKey : List Char := ['l', 'a', 'b', 'e', 'l', '=']

theorem run_labelKey {pos : Nat} {captures : List Capture} {rest : Progress → Option Progress} :
    (Pattern.char (.single 'l')).run cs.toArray ((Pattern.char (.single 'a')).run cs.toArray
      ((Pattern.char (.single 'b')).run cs.toArray ((Pattern.char (.single 'e')).run cs.toArray
        ((Pattern.char (.single 'l')).run cs.toArray ((Pattern.char (.single '=')).run cs.toArray
          rest))))) ⟨pos, captures⟩ =
      (dropStart? labelKey (cs.drop pos)).bind fun _ =>
        rest ⟨pos + labelKey.length, captures⟩ :=
  run_word labelKey

theorem search?_label (before label after : List Char) (hbefore : 'l' ∉ before) (hne : label ≠ [])
    (hlabel : '"' ∉ label) :
    (labelPattern.search? (String.ofList
      (before ++ (labelKey ++ '"' :: (label ++ '"' :: after))))).map (·.group 1) =
        some (String.ofList label) := by
  have hdrop : (before ++ (labelKey ++ '"' :: (label ++ '"' :: after))).drop before.length =
      labelKey ++ '"' :: (label ++ '"' :: after) := drop_left
  have hquote := drop_add hdrop
  have hrun : labelPattern.run (before ++ (labelKey ++ '"' :: (label ++ '"' :: after))).toArray some
      ⟨before.length, []⟩ = some ⟨before.length + labelKey.length + 1 + label.length + 1,
        [⟨1, before.length + labelKey.length + 1,
          before.length + labelKey.length + 1 + label.length⟩]⟩ := by
    rw [labelPattern_eq]
    simp only [run_seq]
    rw [run_labelKey, hdrop, dropStart?_append, Option.bind_some, run_enclosed, hquote,
      enclosed?_append hne hlabel, Option.bind_some]
  rw [search?_of_append _ hrun]
  · exact congrArg some (Match.between_drop (drop_next hquote))
  · intro l c r hl
    have hc : c ≠ 'l' := fun hc => hbefore (by simp [hl, hc])
    rw [hl, labelPattern_eq]
    exact run_single_none (drop_length_append _ _ _ _) hc

theorem search?_file (before file after : List Char) (hbefore : '\\' ∉ before)
    (hfile : ∀ c ∈ file, c ≠ ':' ∧ c ≠ '\n') :
    (filePattern.search? (String.ofList
      (before ++ '\\' :: 'n' :: (file ++ ':' :: after)))).map (·.group 1) =
        some (String.ofList file) := by
  have hdrop : (before ++ '\\' :: 'n' :: (file ++ ':' :: after)).drop before.length =
      '\\' :: 'n' :: (file ++ ':' :: after) := drop_left
  have hfileDrop := drop_next (drop_next hdrop)
  have hlength : file.length ≤ ((file ++ ':' :: after).takeWhile sameLineSet.holds).length - 0 := by
    rw [takeWhile_append_of_pos fun c hc => (holds_sameLineSet c).2 (hfile c hc).2]
    simp
  have hrun : filePattern.run (before ++ '\\' :: 'n' :: (file ++ ':' :: after)).toArray some
      ⟨before.length, []⟩ = some ⟨before.length + 1 + 1 + file.length + 1,
        [⟨1, before.length + 1 + 1, before.length + 1 + 1 + file.length⟩]⟩ := by
    rw [filePattern_eq]
    simp only [run_seq]
    rw [run_single_self hdrop, run_single_self (drop_next hdrop), run_group, run_rounds_char,
      hfileDrop, if_neg (by omega), if_neg (by decide)]
    -- the repetition grows up to the first colon
    apply tryUp_first hlength
    · intro i hi
      have hchar : (before ++ '\\' :: 'n' :: (file ++ ':' :: after)).drop
          (before.length + 1 + 1 + (0 + i)) = file[i] :: (file.drop (i + 1) ++ ':' :: after) := by
        rw [← drop_drop, hfileDrop, Nat.zero_add,
          drop_append_of_le_length (Nat.le_of_lt hi), drop_eq_getElem_cons hi,
          cons_append]
      exact run_single_none hchar (hfile _ (getElem_mem hi)).1
    · rw [Nat.zero_add]
      exact run_single_self (drop_add hfileDrop)
  rw [search?_of_append _ hrun]
  · exact congrArg some (Match.between_drop hfileDrop)
  · intro l c r hl
    have hc : c ≠ '\\' := fun hc => hbefore (by simp [hl, hc])
    rw [hl, filePattern_eq]
    exact run_single_none (drop_length_append _ _ _ _) hc

/-- Behind the colon, the pattern reads digits unless a line break is written there. -/
theorem run_lineNumberPattern {pos : Nat} {d : Char} {after : List Char}
    (h : cs.drop pos = ':' :: d :: after) (hd : d ≠ '\\') :
    lineNumberPattern.run cs.toArray some ⟨pos, []⟩ =
      (Pattern.group 2 (.rounds (.char digitSet) 1 none true)).run cs.toArray some
        ⟨pos + 1, []⟩ := by
  rw [lineNumberPattern_eq]
  simp only [run_seq]
  rw [run_single_self h, run_optional (by simp), run_group, run_seq,
    run_single_none (drop_next h) hd, Option.none_or]

theorem search?_line (before digits : List Char)
    (hbefore : ∀ {l after}, before = l ++ ':' :: after →
      ∃ c rest, after = c :: rest ∧ c ≠ '\\' ∧ isDecimal c = false)
    (hne : digits ≠ []) (hdigits : ∀ c ∈ digits, c.isDigit = true) :
    (lineNumberPattern.search? (String.ofList (before ++ ':' :: digits))).map (·.group 2) =
        some (String.ofList digits) := by
  have hdrop : (before ++ ':' :: digits).drop before.length = ':' :: digits := drop_left
  have hdigitsDrop : (before ++ ':' :: digits).drop (before.length + 1) = digits ++ [] := by
    rw [drop_next hdrop, append_nil]
  have hrun : lineNumberPattern.run (before ++ ':' :: digits).toArray some ⟨before.length, []⟩ =
      some ⟨before.length + 1 + digits.length,
        [⟨2, before.length + 1, before.length + 1 + digits.length⟩]⟩ := by
    have hslash : ∀ c ∈ digits, c ≠ '\\' := by
      rintro c hc rfl
      exact absurd (hdigits _ hc) (by decide)
    obtain ⟨d, tail, hcons⟩ := exists_cons_of_ne_nil hne
    rw [run_lineNumberPattern (hdrop.trans (by rw [hcons])) (hslash d (by simp [hcons])), run_group]
    apply run_rounds_char_all hdigitsDrop
    · intro c hc
      rw [holds_digitSet, isDecimal_digit (hdigits c hc)]
    · simp
    · simp [hcons]
    · rfl
  rw [search?_of_append _ hrun]
  · exact congrArg some (Match.between_drop hdigitsDrop)
  · intro l c r hl
    rw [hl]
    by_cases hc : c = ':'
    · -- a colon of the name has no number behind it
      subst hc
      obtain ⟨d, rest, rfl, hslash, hdecimal⟩ := hbefore hl
      have hcolon := drop_length_append l ':' (d :: rest) (':' :: digits)
      rw [run_lineNumberPattern hcolon hslash, run_group, run_rounds_char_none (by decide)]
      rw [drop_next hcolon]
      intro c hc
      obtain rfl : d = c := by simpa using hc
      rw [holds_digitSet, hdecimal]
    · rw [lineNumberPattern_eq]
      exact run_single_none (drop_length_append _ _ _ _) hc

end

end CodeAtlas.Dot

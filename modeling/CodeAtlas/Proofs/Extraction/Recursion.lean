import CodeAtlas.Proofs.Extraction.MethodNames

/-!
# Functions that call themselves

A text shows a call of an identifier where the identifier stands in front of a
parenthesis and nothing joins it from the left (`ShownCall`). No two of these
overlap, so each is found (`mem_callsInText_iff`). The declarator of a function
is such a place too: a function whose tokens hold it is taken to call itself
(`mem_own_calls_iff`).
-/

namespace CodeAtlas

theorem Ast.subtrees_eq (a : Ast) : a.subtrees = a :: Ast.subtreesAll a.children := by
  cases a
  rfl

end CodeAtlas

namespace CodeAtlas.Extraction

open Pattern Text List

variable {cs before blanks name after : List Char} {f : String}

/-! ### Calls in a text -/

def wordSet : CharSet := { items := [.word false] }

/-- What a name may not stand behind: a colon, or a character that makes it longer. -/
def joinSet : CharSet := { items := [.range ':' ':', .word false] }

theorem holds_wordSet (c : Char) : wordSet.holds c = isWordChar c := by
  simp [CharSet.holds, wordSet, CharItem.holds]

theorem holds_joinSet_of_isWordChar {c : Char} (h : isWordChar c = true) :
    joinSet.holds c = true := by
  simp [CharSet.holds, joinSet, CharItem.holds, h]

theorem plainCallPattern_eq : plainCallPattern =
    .seq (.seq (.seq (.behind (.char joinSet) 1 true)
      (.group 1 (.rounds (.char wordSet) 1 none true))) blankRun)
      (.char (.single '(')) := by
  decide +kernel

/-- A call in a text: a name, blanks and a parenthesis, behind nothing that joins the name. -/
structure ShownCall (cs before name blanks after : List Char) : Prop where
  eq : cs = before ++ (name ++ (blanks ++ '(' :: after))
  ne_nil : name ≠ []
  word : ∀ c ∈ name, isWordChar c = true
  blank : ∀ c ∈ blanks, isBlank c = true
  apart : before.getLast?.any joinSet.holds = false

theorem not_isWordChar_paren : isWordChar '(' = false := by decide +kernel

theorem not_isBlank_paren : isBlank '(' = false := by decide +kernel

theorem not_isWordChar_of_mem (h : ∀ c ∈ blanks, isBlank c = true) {c : Char}
    (hc : c ∈ blanks ++ ['(']) : isWordChar c = false := by
  rw [Bool.eq_false_iff]
  intro hword
  rcases mem_append.1 hc with hc | hc
  · exact Bool.false_ne_true ((isBlank_of_isWordChar hword).symm.trans (h c hc))
  · rw [mem_singleton.1 hc, not_isWordChar_paren] at hword
    cases hword

def callMatch (cs before name blanks : List Char) : Match :=
  ⟨cs.toArray, before.length, before.length + name.length + blanks.length + 1,
    [⟨1, before.length, before.length + name.length⟩]⟩

theorem exists_shownCall_of_matchAt? {pos : Nat} {m : Match}
    (h : plainCallPattern.matchAt? cs.toArray pos false = some m) :
    ∃ before name blanks after, ShownCall cs before name blanks after ∧ pos = before.length ∧
      m = callMatch cs before name blanks := by
  rw [matchAt?_false, plainCallPattern_eq, run_seq, run_seq, run_seq] at h
  obtain ⟨st, hrun, rfl⟩ := Option.map_eq_some_iff.1 h
  have hgroup := run_of_run_not_behind hrun
  rw [run_group] at hgroup
  obtain ⟨name, here, hname, hword, hne, hrest⟩ := exists_of_run_rounds_char hgroup
  obtain ⟨blanks, here', hblanks, hblank, -, hlast⟩ := exists_of_run_rounds_char hrest
  obtain ⟨c, after, hparen, hc, hst⟩ := exists_of_run_char hlast
  obtain rfl := (holds_single _ _).1 hc
  obtain rfl : here = blanks ++ here' := by rw [← drop_add hname, hblanks]
  obtain rfl : here' = '(' :: after := by rw [← drop_add hblanks, hparen]
  have heq : cs = cs.take pos ++ (name ++ (blanks ++ '(' :: after)) := by
    rw [← hname, take_append_drop]
  have hlength : (cs.take pos).length = pos := by
    have hpos : (cs.drop pos).length ≠ 0 := by simp [hname]
    rw [length_drop] at hpos
    rw [length_take]
    omega
  have hapart : (cs.take pos).getLast?.any joinSet.holds = false := by
    rw [← hlength, run_not_behind heq] at hrun
    rw [Bool.eq_false_iff]
    intro hany
    rw [if_pos hany] at hrun
    cases hrun
  obtain rfl := Option.some.inj hst
  refine ⟨cs.take pos, name, blanks, after, ⟨heq, ne_nil_of_length_pos hne, ?_, ?_, hapart⟩,
    hlength.symm, by rw [callMatch, hlength]⟩
  · simpa only [holds_wordSet] using hword
  · simpa only [holds_blankSet] using hblank

theorem ShownCall.matchAt?_eq (h : ShownCall cs before name blanks after) :
    plainCallPattern.matchAt? cs.toArray before.length false =
      some (callMatch cs before name blanks) := by
  have hdrop : cs.drop before.length = name ++ (blanks ++ '(' :: after) := by
    rw [h.eq, drop_left]
  have hblanks := drop_add hdrop
  have hparen := drop_add hblanks
  rw [matchAt?_false, plainCallPattern_eq, run_seq, run_seq, run_seq, Option.map_eq_some_iff]
  refine ⟨⟨before.length + name.length + blanks.length + 1,
    [⟨1, before.length, before.length + name.length⟩]⟩, ?_, rfl⟩
  rw [run_not_behind h.eq, if_neg (by simp [h.apart]), run_group]
  refine run_rounds_char_all hdrop (fun c hc => by rw [holds_wordSet, h.word c hc]) ?_
    (length_pos_of_ne_nil h.ne_nil) ?_
  · intro c hc
    rw [holds_wordSet]
    refine not_isWordChar_of_mem h.blank (mem_of_mem_head? ?_)
    cases blanks <;> simpa using hc
  · refine run_rounds_char_all hblanks (fun c hc => by rw [holds_blankSet, h.blank c hc]) ?_
      (Nat.zero_le _) (run_single_self hparen)
    simp [holds_blankSet, not_isBlank_paren]

theorem ShownCall.stop_le {before' name' blanks' after' : List Char}
    (h : ShownCall cs before name blanks after) (h' : ShownCall cs before' name' blanks' after')
    (hlt : before'.length < before.length) :
    before'.length + name'.length + blanks'.length + 1 ≤ before.length := by
  by_contra hover
  have hhere : cs[before.length]? = name.head? := by
    rw [← head?_drop, h.eq, drop_left, head?_append_of_ne_nil _ h.ne_nil]
  by_cases hinside : before.length < before'.length + name'.length
  · -- the name would stand behind a character that it continues
    have hlast : before.getLast? = name'[before.length - 1 - before'.length]? := by
      have hcs : cs[before.length - 1]? = before[before.length - 1]? := by
        rw [h.eq, getElem?_append_left (by omega)]
      rw [getLast?_eq_getElem?, ← hcs, h'.eq, getElem?_append_right (by omega),
        getElem?_append_left (by omega)]
    have hmem := getElem_mem (l := name') (n := before.length - 1 - before'.length) (by omega)
    have hapart := h.apart
    rw [hlast, getElem?_eq_getElem (by omega), Option.any_some,
      holds_joinSet_of_isWordChar (h'.word _ hmem)] at hapart
    cases hapart
  · -- the name would begin in what stands behind the other one
    have hthere : cs[before.length]? =
        (blanks' ++ ['('])[before.length - before'.length - name'.length]? := by
      rw [h'.eq, getElem?_append_right (by omega), getElem?_append_right (by omega),
        append_cons, getElem?_append_left (by simp; omega)]
    obtain ⟨c, rest, hname⟩ := exists_cons_of_ne_nil h.ne_nil
    rw [hhere, hname, head?_cons] at hthere
    have hword := h.word c (by simp [hname])
    rw [not_isWordChar_of_mem h'.blank (mem_of_getElem? hthere.symm)] at hword
    cases hword

def IsIdentifier (f : String) : Prop :=
  f.toList ≠ [] ∧ ∀ c ∈ f.toList, isWordChar c = true

theorem IsIdentifier.ne_qualify (hf : IsIdentifier f) (scope name : String) :
    qualify scope name ≠ f := by
  rintro rfl
  have hcolon : isWordChar ':' = false := by decide +kernel
  have hword := hf.2 ':' (by simp [qualify])
  rw [hcolon] at hword
  cases hword

/-- An identifier is found in a text, unless it is a keyword, wherever the text shows a call of
it. -/
theorem mem_callsInText_iff (hf : IsIdentifier f) (text : String) :
    f ∈ callsInText text ↔ f ∉ keywords ∧
      ∃ before blanks after, ShownCall text.toList before f.toList blanks after := by
  have hall := leftmost_findAll (p := plainCallPattern) (s := text) (by
    intro pos m hm
    obtain ⟨before, name, blanks, after, h, rfl, rfl⟩ := exists_shownCall_of_matchAt? hm
    have hlength := congrArg length h.eq
    simp only [length_append, length_cons] at hlength
    simp only [callMatch]
    omega)
  have hgroup : ∀ {before name blanks after : List Char},
      ShownCall text.toList before name blanks after →
      (callMatch text.toList before name blanks).group 1 = String.ofList name := by
    intro before name blanks after h
    exact Match.between_toArray before (blanks ++ '(' :: after) h.eq rfl rfl
  have hqualified : f ∉ (qualifiedCallPattern.findAll text).map
      fun m => qualify (m.group 1) (m.group 2) := by
    intro hmem
    obtain ⟨m, _, hm⟩ := mem_map.1 hmem
    exact hf.ne_qualify _ _ hm
  rw [callsInText, mem_append, or_iff_right hqualified, mem_filter, and_comm]
  refine and_congr (by simp) ⟨fun hmem => ?_, fun ⟨before, blanks, after, h⟩ => ?_⟩
  · obtain ⟨m, hm, hname⟩ := mem_map.1 hmem
    obtain ⟨pos, hpos⟩ := hall.found_of_mem hm
    obtain ⟨before, name, blanks, after, h, rfl, rfl⟩ := exists_shownCall_of_matchAt? hpos
    rw [hgroup h] at hname
    exact ⟨before, blanks, after, by rwa [← hname, String.toList_ofList]⟩
  · refine mem_map.2 ⟨callMatch text.toList before f.toList blanks, ?_, ?_⟩
    · refine hall.mem (Nat.zero_le _) h.matchAt?_eq (fun m hm => ?_) fun pos m hpos hm => ?_
      · exact (Option.some.inj (h.matchAt?_eq.symm.trans hm)).symm
      · obtain ⟨before', name', blanks', after', h', rfl, rfl⟩ := exists_shownCall_of_matchAt? hm
        exact h.stop_le h' hpos
    · rw [hgroup h, String.ofList_toList]

theorem mem_mentionedBy?_iff (hf : IsIdentifier f) (info : NodeInfo) (next : Option Ast) :
    f ∈ (mentionedBy? info next).toList ↔
      ∃ r, (info.kind = .call ∧ info.referent = some r) ∧ calledName r = f := by
  have hmember : memberCall? info next ≠ some f := by
    unfold memberCall?
    split
    · split
      · dsimp only
        split
        · simp
        · simpa using hf.ne_qualify _ _
      · simp
    · simp
  unfold mentionedBy?
  cases info.kind with
  | call => simp
  | memberRef => simp [hmember]
  | _ => simp

/-! ### Calls below a node -/

mutual

theorem mem_mentions_iff (hf : IsIdentifier f) : ∀ a : Ast,
    f ∈ mentions a ↔ (∃ r, a.CallsTo r ∧ calledName r = f) ∨
      ∃ t ∈ a.subtrees, f ∈ callsInText t.info.text
  | .node info children => by
    rw [mentions, mem_append, mem_mentionsAmong_iff hf children, Ast.subtrees,
      exists_mem_cons_iff, or_assoc, or_comm (a := f ∈ _)]
    rfl

theorem mem_mentionsAmong_iff (hf : IsIdentifier f) : ∀ l : List Ast,
    f ∈ mentionsAmong l ↔
      (∃ r, (∃ n ∈ Ast.subtreesAll l, n.kind = .call ∧ n.info.referent = some r) ∧
        calledName r = f) ∨
      ∃ t ∈ Ast.subtreesAll l, f ∈ callsInText t.info.text
  | [] => by simp [mentionsAmong, Ast.subtreesAll]
  | a :: rest => by
    rw [mentionsAmong, mem_append, mem_append, mem_mentionedBy?_iff hf,
      mem_mentions_iff hf a, mem_mentionsAmong_iff hf rest]
    simp only [Ast.CallsTo, Ast.subtreesAll, Ast.subtrees_eq a, mem_append, mem_cons,
      or_and_right, exists_or, exists_eq_left, Ast.kind]
    exact (or_congr_left or_assoc.symm).trans or_or_or_comm

end

/-- The visit records a function, and the function calls itself: a call below it uses its name, or
the text of its node or of one below shows the name in front of a parenthesis. -/
def Visit.Recurs (v : Visit) (fs : Functions) (f : String) : Prop :=
  ∃ d, v = .definition d ∧ d.isSkipped fs = false ∧ d.name = f ∧
    ((∃ r, d.node.CallsTo r ∧ calledName r = f) ∨ f ∉ keywords ∧ ∃ t ∈ d.node.subtrees,
      ∃ before blanks after, ShownCall t.info.text.toList before f.toList blanks after)

theorem Visit.recurs_iff (hf : IsIdentifier f) (v : Visit) (fs : Functions) :
    v.Recurs fs f ↔ v.Calls fs f f := by
  simp only [Recurs, Calls, mem_mentions_iff hf, mem_callsInText_iff hf,
    and_left_comm (a := _ ∈ _), exists_and_left]

theorem exists_shownCall_of_tokens (hf : IsIdentifier f) {info : NodeInfo} {l r : List String}
    (h : info.tokens = l ++ f :: "(" :: r) :
    ∃ before blanks after, ShownCall info.text.toList before f.toList blanks after := by
  have hblank : isBlank ' ' = true := by decide +kernel
  have hjoin : joinSet.holds ' ' = false := by decide +kernel
  rw [NodeInfo.text, h]
  cases l with
  | nil =>
    refine ⟨[], [' '], r.flatMap fun s => " ".toList ++ s.toList, ?_, hf.1, hf.2,
      by simpa using hblank, rfl⟩
    rw [nil_append, toList_join_eq_flatMap]
    simp
  | cons x l =>
    refine ⟨x.toList ++ (l.flatMap fun s => " ".toList ++ s.toList) ++ [' '], [' '],
      r.flatMap fun s => " ".toList ++ s.toList, ?_, hf.1, hf.2, by simpa using hblank, ?_⟩
    · rw [cons_append, toList_join_eq_flatMap]
      simp
    · simp [hjoin]

/-- A function is taken to call itself if, since its entry was last begun, it was recorded with a
call of its name below it or a text that shows one. The tokens of its own declarator are enough. -/
theorem mem_own_calls_iff {options : Options} {file : String} {a : Ast} {fs : Functions}
    (h : extract options file a = .ok fs) {f : String} (hf : IsIdentifier f) {F : Function}
    (hF : fs.get? f = some F) :
    (f ∈ F.calls ↔ Since (fun v fs => v.Recurs fs f) f (visits file a) []) ∧
      ∀ d l r, .definition (.ofFunction d) ∈ visits file a → d.info.name = f →
        d.info.tokens = l ++ f :: "(" :: r → f ∉ keywords →
        (∀ t ∈ a.subtrees, t.kind = .classTemplate → t.info.name ≠ f) → f ∈ F.calls := by
  obtain ⟨walked, hwalked, hsame⟩ := sameCalls_extract h
  have hiff : f ∈ F.calls ↔ Since (fun v fs => v.Recurs fs f) f (visits file a) [] := by
    simp only [Visit.recurs_iff hf]
    rw [← callsOf_of_get? hF, hsame.calls_eq,
      runAll_iff_since (fun hv => mem_callsOf_run hv f f) (visits file a) hwalked]
    simp [callsOf]
  refine ⟨hiff, fun d l r hd hname htokens hkeyword hnames => hiff.2 ?_⟩
  refine since_of_mem hd hwalked (fun fs' => ?_) fun _ => keeps_of_mem_visits hnames
  refine ⟨.ofFunction d, rfl, rfl, hname,
    .inr ⟨hkeyword, d, ?_, exists_shownCall_of_tokens hf htokens⟩⟩
  exact d.subtrees_eq ▸ mem_cons_self

/-- A function without calls, with its declarator among its tokens. -/
def declaredFunction : Ast :=
  let tokens := ["int", "f", "(", ")", "\x7b", "\x7d"]
  fileTree [.node { kind := .function, name := "f", isDefinition := true, tokens } []]

theorem extract_declaredFunction : ∃ fs F, extract {} "a.cpp" declaredFunction = .ok fs ∧
    fs.get? "f" = some F ∧ F.calls = ["f"] := by
  obtain ⟨fs, hextract, hview⟩ : ∃ fs, extract {} "a.cpp" declaredFunction = .ok fs ∧
      (fs.get? "f").map (·.calls) = some ["f"] :=
    exists_of_toOption_map (by decide +kernel)
  obtain ⟨F, hF, hcalls⟩ := Option.map_eq_some_iff.1 hview
  exact ⟨fs, F, hextract, hF, hcalls⟩

theorem mem_own_calls_declaredFunction :
    IsIdentifier "f" ∧ ∃ fs F d, extract {} "a.cpp" declaredFunction = .ok fs ∧
      fs.get? "f" = some F ∧ .definition (.ofFunction d) ∈ visits "a.cpp" declaredFunction ∧
      d.info.name = "f" ∧ d.info.tokens = ["int"] ++ "f" :: "(" :: [")", "\x7b", "\x7d"] ∧
      "f" ∈ F.calls ∧
      Since (fun v fs => v.Recurs fs "f") "f" (visits "a.cpp" declaredFunction) [] := by
  have hf : IsIdentifier "f" := ⟨by decide, all_eq_true.1 (by decide +kernel)⟩
  obtain ⟨fs, F, hextract, hF, -⟩ := extract_declaredFunction
  obtain ⟨d, rest, hvisits, hname, htokens⟩ : ∃ d rest,
      visits "a.cpp" declaredFunction = .definition (.ofFunction d) :: rest ∧ d.info.name = "f" ∧
        d.info.tokens = ["int"] ++ "f" :: "(" :: [")", "\x7b", "\x7d"] := ⟨_, _, rfl, rfl, rfl⟩
  have hvisit : .definition (.ofFunction d) ∈ visits "a.cpp" declaredFunction := by
    rw [hvisits]
    exact mem_cons_self
  obtain ⟨hiff, hdeclared⟩ := mem_own_calls_iff hextract hf hF
  have hcalls : "f" ∈ F.calls :=
    hdeclared d _ _ hvisit hname htokens (by decide +kernel) (by decide +kernel)
  exact ⟨hf, fs, F, d, hextract, hF, hvisit, hname, htokens, hcalls, hiff.1 hcalls⟩

/-- Nothing is called and the name stands in the declarator only, but it is taken for a call. -/
theorem declaredFunction_calls_itself :
    (∀ t ∈ declaredFunction.subtrees, t.kind ≠ .call ∧ t.info.tokens.count "f" ≤ 1) ∧
      ∃ fs F, extract {} "a.cpp" declaredFunction = .ok fs ∧ fs.get? "f" = some F ∧
        F.calls = ["f"] :=
  ⟨by decide +kernel, extract_declaredFunction⟩

end CodeAtlas.Extraction

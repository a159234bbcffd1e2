import CodeAtlas.Proofs.Extraction.CallSearch
import CodeAtlas.Proofs.Extraction.Walk

/-!
# Calls and callers

A call stands in two lists: the caller has the name called among its calls, the
function called has the caller among its callers. Both lists are written while
the definitions are still being found, so they need not agree.

One visit of the walk is one equation for each list. A definition adds its calls
and tells the functions that are there (`Definition.written_run`). A class
template that is a function of types replaces the entry of its name by one
without calls and callers (`replacedName?`), any other one leaves the lists
alone. From these follow the two results. Every caller is one, unless a class
template has the name of a function. When a call stands in either list is said
by the last visit that wrote it (`Since`): a call of a function that has no
entry yet is entered with the caller, and with the function called never.
-/

namespace CodeAtlas.Extraction

open Text List Dict

variable {classNames : List String} {v : Visit} {vs : List Visit} {f : Function}
  {fs fs' fs₁ : Functions} (d : Definition) (a : Ast) {name : String}

/-! ### New entries -/

/-- The tables show the same calls and callers. -/
structure SameCalls (fs fs' : Functions) : Prop where
  calls_eq : ∀ name, callsOf fs' name = callsOf fs name
  callers_eq : ∀ name, callersOf fs' name = callersOf fs name
  has_of_has : ∀ name, fs.has name = true → fs'.has name = true

theorem SameCalls.refl (fs : Functions) : SameCalls fs fs :=
  ⟨fun _ => rfl, fun _ => rfl, fun _ => id⟩

theorem SameCalls.trans {fs₂ fs₃ : Functions} (h₁ : SameCalls fs₁ fs₂) (h₂ : SameCalls fs₂ fs₃) :
    SameCalls fs₁ fs₃ where
  calls_eq name := (h₂.calls_eq name).trans (h₁.calls_eq name)
  callers_eq name := (h₂.callers_eq name).trans (h₁.callers_eq name)
  has_of_has name h := h₂.has_of_has name (h₁.has_of_has name h)

theorem sameCalls_of_cores (h : cores fs' = cores fs) : SameCalls fs fs' where
  calls_eq name := by rw [callsOf_eq_cores, h, ← callsOf_eq_cores]
  callers_eq name := by rw [callersOf_eq_cores, h, ← callersOf_eq_cores]
  has_of_has name hname := by rw [has_eq_cores, h, ← has_eq_cores, hname]

/-- A name that had no entry had no calls, so an empty entry for it shows nothing new. -/
theorem sameCalls_set {key : String} (hnew : fs.has key = false) (hcalls : f.calls = [])
    (hcallers : f.calledBy = []) :
    SameCalls fs (Dict.set fs key f) where
  calls_eq name := by
    by_cases hname : name = key <;> simp [callsOf, get?_set, (has_eq_false_iff _ _).1 hnew, *]
  callers_eq name := by
    by_cases hname : name = key <;> simp [callersOf, get?_set, (has_eq_false_iff _ _).1 hnew, *]
  has_of_has name hname := (has_set fs key f name).2 (.inr hname)

theorem sameCalls_record (fs : Functions) (hcalls : f.calls = []) (hcallers : f.calledBy = []) :
    SameCalls fs (record fs f) := by
  unfold record
  split_ifs with hnew
  · exact SameCalls.refl fs
  · exact sameCalls_set (Bool.eq_false_iff.2 hnew) hcalls hcallers

/-! ### One visit -/

namespace Definition

/-- What is found below a definition, together with the calls that its name has already. -/
def search (d : Definition) (fs : Functions) : Edges := searchNode d.node ⟨callsOf fs d.name, []⟩

theorem cores_enter (fs : Functions) : cores (d.enter fs) = cores (record fs d.entry) := by
  unfold enter record
  by_cases hknown : fs.has d.name = true
  · have hentry : fs.has d.entry.name = true := hknown
    rw [if_pos hknown, if_pos hentry, cores_adjust fs d.name d.core_refresh]
  · have hentry : ¬ fs.has d.entry.name = true := hknown
    rw [if_neg hknown, if_neg hentry]
    rfl

theorem sameCalls_enter (fs : Functions) : SameCalls fs (d.enter fs) :=
  (sameCalls_record fs d.entry_calls d.entry_calledBy).trans (sameCalls_of_cores (d.cores_enter fs))

theorem has_enter (fs : Functions) (name : String) :
    (d.enter fs).has name = true ↔ name = d.name ∨ fs.has name = true := by
  unfold enter
  split_ifs with hknown
  · rw [has_adjust]
    constructor
    · exact .inr
    · rintro (rfl | h)
      · exact hknown
      · exact h
  · exact has_set fs d.name d.entry name

theorem written_run {d : Definition} (hskip : d.isSkipped fs = false) (h : d.run fs = .ok fs') :
    (d.search fs).Written d.name (d.enter fs) fs' := by
  have hknown : (d.enter fs).has d.name = true := (d.has_enter fs d.name).2 (.inl rfl)
  have hfound := written_findCalls hknown d.node
  rw [(d.sameCalls_enter fs).calls_eq] at hfound
  have hcores : cores fs' = cores (findCalls d.name d.node (d.enter fs)) := by
    rw [run, hskip] at h
    exact gives_cores_adjustM _ d.name d.gives_core_finish fs' h
  have hsame := sameCalls_of_cores hcores
  refine ⟨?_, ?_, ?_⟩
  · intro name
    rw [has_eq_cores, hcores, ← has_eq_cores]
    exact hfound.has_eq name
  · intro name
    rw [hsame.calls_eq]
    exact hfound.calls_eq name
  · intro name x
    rw [hsame.callers_eq]
    exact hfound.mem_callers name x

end Definition

/-- The name whose entry a class template replaces: its own, if it is a function of types. -/
def replacedName? (a : Ast) : Option String :=
  if (!a.info.name.isEmpty && occursIn "struct" a.info.text) ||
      occursIn "class" a.info.text then
    (classKind? a.info.text).map fun _ => a.info.name
  else none

theorem replacedName?_eq_some {a : Ast} (h : replacedName? a = some name) : name = a.info.name := by
  unfold replacedName? at h
  split at h
  · obtain ⟨_, _, hname⟩ := Option.map_eq_some_iff.1 h
    exact hname.symm
  · cases h

/-- A class template leaves all calls alone, or replaces the entry of its name by an empty one. -/
theorem registerTemplateClass_cases (fs : Functions) :
    replacedName? a = none ∧ SameCalls fs (registerTemplateClass a fs) ∨
      replacedName? a = some a.info.name ∧ ∃ fs₁ f, SameCalls fs fs₁ ∧ f.calls = [] ∧
        f.calledBy = [] ∧ registerTemplateClass a fs = Dict.set fs₁ a.info.name f := by
  unfold replacedName? registerTemplateClass
  extract_lets info text fs₁
  have h₁ : SameCalls fs fs₁ := by
    dsimp only [fs₁]
    split
    · exact sameCalls_record fs rfl rfl
    · exact SameCalls.refl fs
  split
  · cases hkind : classKind? a.info.text with
    | none =>
      refine .inl ⟨rfl, ?_⟩
      simp only [info]
      split
      · exact h₁
      · exact h₁.trans (sameCalls_record fs₁ rfl rfl)
    | some kind =>
      simp only [info]
      obtain ⟨signature, hentry⟩ := becomes_classEntry hkind
      exact .inr ⟨rfl, fs₁, _, h₁, congrArg Function.Core.calls hentry.core_eq,
        congrArg Function.Core.calledBy hentry.core_eq, rfl⟩
  · exact .inl ⟨rfl, h₁⟩

/-- The calls and callers of the name that is replaced are gone, all others stay. -/
theorem lists_registerTemplateClass (fs : Functions) (name : String) :
    callsOf (registerTemplateClass a fs) name =
        (if replacedName? a = some name then [] else callsOf fs name) ∧
      callersOf (registerTemplateClass a fs) name =
        if replacedName? a = some name then [] else callersOf fs name := by
  rcases registerTemplateClass_cases a fs with
    ⟨hnone, hsame⟩ | ⟨hsome, fs₁, f, hsame, hcalls, hcallers, heq⟩
  · simp [hnone, hsame.calls_eq, hsame.callers_eq]
  · rw [heq, hsome, ← hsame.calls_eq, ← hsame.callers_eq]
    by_cases hname : name = a.info.name
    · simp [callsOf, callersOf, get?_set, *]
    · simp [callsOf, callersOf, get?_set, hname, Ne.symm hname]

theorem Visit.run_cases (h : v.run fs = .ok fs') :
    (∃ d, v = .definition d ∧ d.isSkipped fs = true ∧ fs' = fs) ∨
      (∃ d, v = .definition d ∧ d.isSkipped fs = false ∧
        (d.search fs).Written d.name (d.enter fs) fs') ∨
      ∃ a, v = .templateClass a ∧ fs' = registerTemplateClass a fs := by
  cases v with
  | definition d =>
    cases hskip : d.isSkipped fs with
    | true =>
      refine .inl ⟨d, rfl, hskip, ?_⟩
      rw [Visit.run, Definition.run, hskip] at h
      cases h
      rfl
    | false => exact .inr (.inl ⟨d, rfl, hskip, Definition.written_run hskip h⟩)
  | templateClass a =>
    cases h
    exact .inr (.inr ⟨a, rfl, rfl⟩)

def entersSameType (a : Ast) : Bool :=
  (a.info.name == "is_same" ||
    (startsWith a.info.text "template" && occursIn "is_same" a.info.text)) &&
    looksSpecialized a.info.tokens a.info.text

def entersOwnName (a : Ast) : Bool :=
  ((!a.info.name.isEmpty && occursIn "struct" a.info.text) ||
    occursIn "class" a.info.text) &&
    ((classKind? a.info.text).isSome || !(templateTemplateParams a).isEmpty)

def Visit.Enters (name : String) : Visit → Prop
  | .definition d => name = d.name
  | .templateClass a =>
    entersSameType a = true ∧ name = "is_same<T, T>" ∨ entersOwnName a = true ∧ name = a.info.name

theorem has_record (fs : Functions) {key : String} (hkey : f.name = key) (name : String) :
    (record fs f).has name = true ↔ name = key ∨ fs.has name = true := by
  subst hkey
  unfold record
  split_ifs with hknown
  · exact (or_iff_right_of_imp fun hname => hname ▸ hknown).symm
  · exact has_set fs f.name f name

theorem has_registerTemplateClass (fs : Functions) (name : String) :
    (registerTemplateClass a fs).has name = true ↔
      Visit.Enters name (.templateClass a) ∨ fs.has name = true := by
  unfold registerTemplateClass Visit.Enters
  extract_lets info text fs₁
  have h₁ : fs₁.has name = true ↔
      entersSameType a = true ∧ name = "is_same<T, T>" ∨ fs.has name = true := by
    change Dict.has (if entersSameType a then _ else _) name = true ↔ _
    cases entersSameType a with
    | true =>
      simp only [if_true, true_and]
      exact has_record fs rfl name
    | false => simp
  rw [or_right_comm, ← h₁, or_comm]
  unfold entersOwnName
  split
  · next hshown =>
      rw [show (_ || _) = true from hshown, Bool.true_and]
      cases hkind : classKind? a.info.text with
      | some kind => simp [info, has_set]
      | none =>
        cases (templateTemplateParams a).isEmpty with
        | true => simp
        | false =>
          simp only [Bool.false_eq_true, if_false, Option.isSome_none, Bool.not_false,
            Bool.or_true, true_and]
          exact has_record fs₁ rfl name
  · next hshown =>
      rw [show (_ || _) = false from Bool.eq_false_iff.2 hshown]
      simp

theorem Visit.has_run_iff (h : v.run fs = .ok fs') (name : String) :
    fs'.has name = true ↔ v.Enters name ∨ fs.has name = true := by
  rcases Visit.run_cases h with ⟨d, rfl, hskip, rfl⟩ | ⟨d, rfl, _, hwritten⟩ | ⟨a, rfl, rfl⟩
  · have hknown : fs'.has d.name = true := (Bool.and_eq_true_iff.1 hskip).2
    exact (or_iff_right_of_imp fun hname : name = d.name => hname ▸ hknown).symm
  · rw [hwritten.has_eq]
    exact d.has_enter fs name
  · exact has_registerTemplateClass a fs name

/-! ### All visits -/

theorem has_runAll_iff (vs : List Visit) (h : Visit.runAll vs fs = .ok fs') (name : String) :
    fs'.has name = true ↔ (∃ v ∈ vs, v.Enters name) ∨ fs.has name = true := by
  induction vs generalizing fs with
  | nil =>
    cases h
    simp
  | cons v vs ih =>
    rw [Visit.runAll, foldlM_cons] at h
    obtain ⟨fs₁, hv, hrun⟩ := exists_of_bind_eq_ok h
    rw [ih hrun, Visit.has_run_iff hv, ← or_assoc, exists_mem_cons_iff]
    exact or_congr_left or_comm

/-- One of the visits records a definition under the name. -/
def Records (vs : List Visit) (fs : Functions) (name : String) : Prop :=
  ∃ before d after fs', vs = before ++ .definition d :: after ∧
    Visit.runAll before fs = .ok fs' ∧ d.isSkipped fs' = false ∧ d.name = name

theorem records_head {d : Definition} (h : d.isSkipped fs = false) :
    Records (.definition d :: vs) fs d.name :=
  ⟨[], d, vs, fs, rfl, rfl, h, rfl⟩

theorem records_tail (hv : v.run fs = .ok fs₁) (h : Records vs fs₁ name) :
    Records (v :: vs) fs name := by
  obtain ⟨before, d, after, fs', rfl, hrun, hskip, hname⟩ := h
  refine ⟨v :: before, d, after, fs', rfl, ?_, hskip, hname⟩
  rw [Visit.runAll, foldlM_cons, hv]
  exact hrun

/-- Every caller has the call, and the names of class templates have no calls. -/
structure Sound (classNames : List String) (fs : Functions) : Prop where
  mem_calls : ∀ f g, g ∈ callersOf fs f → f ∈ callsOf fs g
  calls_className : ∀ name ∈ classNames, callsOf fs name = []

theorem Sound.of_sameCalls (hsame : SameCalls fs fs') (h : Sound classNames fs) :
    Sound classNames fs' where
  mem_calls f g hg := by
    rw [hsame.callers_eq] at hg
    rw [hsame.calls_eq]
    exact h.mem_calls f g hg
  calls_className name hname := by
    rw [hsame.calls_eq]
    exact h.calls_className name hname

theorem Sound.of_written {d : Definition} (hd : d.name ∉ classNames)
    (hwritten : (d.search fs).Written d.name (d.enter fs) fs') (h : Sound classNames fs) :
    Sound classNames fs' := by
  have henter := h.of_sameCalls (d.sameCalls_enter fs)
  have hkept : callsOf (d.enter fs) d.name ⊆ (d.search fs).calls := by
    rw [(d.sameCalls_enter fs).calls_eq]
    exact subset_calls_searchNode d.node ⟨callsOf fs d.name, []⟩
  have hlinked : (d.search fs).linked ⊆ (d.search fs).calls :=
    linked_subset_calls_searchNode d.node (nil_subset _)
  constructor
  · intro f g hg
    rw [hwritten.calls_eq]
    rcases (hwritten.mem_callers f g).1 hg with hold | ⟨rfl, htold, _⟩
    · have hcall := henter.mem_calls f g hold
      split_ifs with hname
      · subst hname
        exact hkept hcall
      · exact hcall
    · rw [if_pos rfl]
      exact hlinked htold
  · intro name hname
    rw [hwritten.calls_eq, if_neg (ne_of_mem_of_not_mem hname hd)]
    exact henter.calls_className name hname

theorem Sound.registerTemplateClass {a : Ast} (ha : a.info.name ∈ classNames)
    (h : Sound classNames fs) : Sound classNames (registerTemplateClass a fs) := by
  constructor
  · intro f g hg
    rw [(lists_registerTemplateClass a fs f).2] at hg
    rw [(lists_registerTemplateClass a fs g).1]
    split at hg
    · cases hg
    · have hcall := h.mem_calls f g hg
      split_ifs with hreplaced
      · -- the name of a class template is no caller
        rw [replacedName?_eq_some hreplaced, h.calls_className _ ha] at hcall
        cases hcall
      · exact hcall
  · intro name hname
    rw [(lists_registerTemplateClass a fs name).1]
    split
    · rfl
    · exact h.calls_className name hname

theorem sound_runAll (vs : List Visit)
    (hclass : ∀ a, .templateClass a ∈ vs → a.info.name ∈ classNames)
    (hrecords : ∀ name ∈ classNames, ¬ Records vs fs name) (h : Sound classNames fs)
    (hrun : Visit.runAll vs fs = .ok fs') : Sound classNames fs' := by
  induction vs generalizing fs with
  | nil =>
    cases hrun
    exact h
  | cons v vs ih =>
    rw [Visit.runAll, foldlM_cons] at hrun
    obtain ⟨fs₁, hv, hrun⟩ := exists_of_bind_eq_ok hrun
    have hstep : Sound classNames fs₁ := by
      rcases Visit.run_cases hv with ⟨d, rfl, _, rfl⟩ | ⟨d, rfl, hskip, hwritten⟩ | ⟨a, rfl, rfl⟩
      · exact h
      · exact h.of_written (fun hd => hrecords d.name hd (records_head hskip)) hwritten
      · exact h.registerTemplateClass (hclass a mem_cons_self)
    refine ih (fun a ha => hclass a (mem_cons_of_mem v ha)) ?_ hstep hrun
    intro name hname hlater
    exact hrecords name hname (records_tail hv hlater)

theorem sameCalls_extract {options : Options} {file : String} {a : Ast}
    (h : extract options file a = .ok fs) :
    ∃ walked, Visit.runAll (visits file a) [] = .ok walked ∧ SameCalls walked fs := by
  obtain ⟨walked, hwalked, hcores⟩ := cores_extract h
  rw [visit_eq_runAll] at hwalked
  refine ⟨walked, hwalked, ?_⟩
  rcases hcores with hcores | ⟨hnew, same, _, hcores⟩
  · exact sameCalls_of_cores hcores
  · have hset : cores fs = cores (Dict.set walked "is_same<T, T>"
        (sameTypeSpecialization same.filePath same.lineNumber)) := by
      rw [hcores, cores, cores, Dict.mapValues_set]
    exact (sameCalls_set hnew rfl rfl).trans (sameCalls_of_cores hset)

/-- Every caller of a function has an entry, and the function among its calls, if no class
template has a name under which a definition is recorded. -/
theorem mem_calls_of_mem_calledBy {options : Options} {file : String} {a : Ast} {fs : Functions}
    (h : extract options file a = .ok fs)
    (hnames : ∀ t ∈ a.subtrees, t.kind = .classTemplate → ¬ Records (visits file a) [] t.info.name)
    {f g : String} {F : Function} (hf : fs.get? f = some F) (hg : g ∈ F.calledBy) :
    ∃ G, fs.get? g = some G ∧ f ∈ G.calls := by
  obtain ⟨walked, hwalked, hsame⟩ := sameCalls_extract h
  let classes := a.subtrees.filter (·.kind == .classTemplate)
  have hclass : ∀ t, .templateClass t ∈ visits file a →
      t.info.name ∈ classes.map (·.info.name) := by
    intro t ht
    obtain ⟨hkind, hmem⟩ := (below_of_mem_visits file a ht).templateClass _ rfl
    exact mem_map_of_mem (mem_filter.2 ⟨hmem, beq_iff_eq.2 hkind⟩)
  have hrecords : ∀ name ∈ classes.map (·.info.name), ¬ Records (visits file a) [] name := by
    intro name hname
    obtain ⟨t, ht, rfl⟩ := mem_map.1 hname
    obtain ⟨hmem, hkind⟩ := mem_filter.1 ht
    exact hnames t hmem (beq_iff_eq.1 hkind)
  have hempty : Sound (classes.map (·.info.name)) [] := by
    constructor
    · intro f g hg
      cases hg
    · intro name _
      rfl
  have hsound := (sound_runAll (visits file a) hclass hrecords hempty hwalked).of_sameCalls hsame
  rw [← callersOf_of_get? hf] at hg
  have hcall := hsound.mem_calls f g hg
  obtain ⟨G, hG⟩ := (Dict.has_iff fs g).1 (has_of_mem_callsOf hcall)
  exact ⟨G, hG, by rwa [callsOf_of_get? hG] at hcall⟩

/-- A function that calls the given ones. -/
def functionTree (name : String) (calls : List String) : Ast :=
  .node { kind := .function, name, isDefinition := true }
    (calls.map fun called =>
      .node { kind := .call, referent := some ⟨.function, called, none⟩ } [])

def fileTree (nodes : List Ast) : Ast := .node { kind := .other "TRANSLATION_UNIT" } nodes

def Visit.definedName? : Visit → Option String
  | .definition d => some d.name
  | .templateClass _ => none

theorem mem_definedNames_of_records (h : Records vs fs name) :
    name ∈ vs.filterMap Visit.definedName? := by
  obtain ⟨before, d, after, _, rfl, _, _, rfl⟩ := h
  exact mem_filterMap.2 ⟨.definition d, by simp, rfl⟩

/-- Two functions with a class template between them that is a function of types. -/
def callAcrossTrait : Ast :=
  fileTree [functionTree "size" [],
    .node { kind := .classTemplate, name := "rank", tokens := ["class", "const", "value"] } [],
    functionTree "main" ["size"]]

theorem mem_calls_callAcrossTrait :
    ∃ fs F, extract { templates := false } "a.cpp" callAcrossTrait = .ok fs ∧
      fs.get? "size" = some F ∧ F.calledBy = ["main"] ∧
      ∃ G, fs.get? "main" = some G ∧ "size" ∈ G.calls := by
  obtain ⟨fs, hextract, hview⟩ :
      ∃ fs, extract { templates := false } "a.cpp" callAcrossTrait = .ok fs ∧
        (fs.get? "size").map (·.calledBy) = some ["main"] :=
    exists_of_toOption_map (by decide +kernel)
  obtain ⟨F, hF, hcallers⟩ := Option.map_eq_some_iff.1 hview
  have hdistinct : ∀ t ∈ callAcrossTrait.subtrees, t.kind = .classTemplate →
      t.info.name ∉ (visits "a.cpp" callAcrossTrait).filterMap Visit.definedName? := by
    decide +kernel
  refine ⟨fs, F, hextract, hF, hcallers, mem_calls_of_mem_calledBy hextract ?_ hF ?_⟩
  · intro t ht hkind hrecords
    exact hdistinct t ht hkind (mem_definedNames_of_records hrecords)
  · rw [hcallers]
    exact mem_cons_self

/-- The visit records the caller, and the definition mentions the name. -/
def Visit.Calls (v : Visit) (fs : Functions) (caller called : String) : Prop :=
  ∃ d, v = .definition d ∧ d.isSkipped fs = false ∧ d.name = caller ∧ called ∈ mentions d.node

/-- The function is there when the visit records the caller, and is told of the call. -/
def Visit.Tells (v : Visit) (fs : Functions) (caller called : String) : Prop :=
  ∃ d, v = .definition d ∧ d.isSkipped fs = false ∧ d.name = caller ∧
    (d.enter fs).has called = true ∧ called ∈ (d.search fs).linked

/-- The visit does not replace the entry of the name. -/
def Visit.Keeps (v : Visit) (name : String) : Prop :=
  ∀ a, v = .templateClass a → replacedName? a ≠ some name

/-- Something happens on one of the visits, and no later one replaces the entry of the name. -/
def Since (happens : Visit → Functions → Prop) (name : String) (vs : List Visit) (fs : Functions) :
    Prop :=
  ∃ before v after fs', vs = before ++ v :: after ∧ Visit.runAll before fs = .ok fs' ∧
    happens v fs' ∧ ∀ w ∈ after, w.Keeps name

theorem since_cons_iff {happens : Visit → Functions → Prop} (hv : v.run fs = .ok fs₁) :
    Since happens name (v :: vs) fs ↔
      happens v fs ∧ (∀ w ∈ vs, w.Keeps name) ∨ Since happens name vs fs₁ := by
  have hrun : ∀ before, Visit.runAll (v :: before) fs = Visit.runAll before fs₁ := by
    intro before
    rw [Visit.runAll, foldlM_cons, hv]
    rfl
  constructor
  · rintro ⟨before, w, after, fs', heq, hbefore, hhappens, hkeeps⟩
    cases before with
    | nil =>
      cases heq
      cases hbefore
      exact .inl ⟨hhappens, hkeeps⟩
    | cons v' before =>
      cases heq
      rw [hrun] at hbefore
      exact .inr ⟨before, w, after, fs', rfl, hbefore, hhappens, hkeeps⟩
  · rintro (⟨hhappens, hkeeps⟩ | ⟨before, w, after, fs', rfl, hbefore, hhappens, hkeeps⟩)
    · exact ⟨[], v, vs, fs, rfl, rfl, hhappens, hkeeps⟩
    · exact ⟨v :: before, w, after, fs', rfl, by rw [hrun, hbefore], hhappens, hkeeps⟩

/-- What a visit brings about or keeps is there after all visits if it was brought about and has
been kept since, or was there and was kept throughout. -/
theorem runAll_iff_since {holds : Functions → Prop} {happens : Visit → Functions → Prop}
    (hstep : ∀ {v : Visit} {fs fs' : Functions}, v.run fs = .ok fs' →
      (holds fs' ↔ holds fs ∧ v.Keeps name ∨ happens v fs))
    (vs : List Visit) (hrun : Visit.runAll vs fs = .ok fs') :
    holds fs' ↔ holds fs ∧ (∀ v ∈ vs, v.Keeps name) ∨ Since happens name vs fs := by
  induction vs generalizing fs with
  | nil =>
    cases hrun
    have hnone : ¬ Since happens name [] fs' := by
      rintro ⟨before, v, after, _, heq, _⟩
      cases before <;> cases heq
    simp [hnone]
  | cons v vs ih =>
    rw [Visit.runAll, foldlM_cons] at hrun
    obtain ⟨fs₁, hv, hrun⟩ := exists_of_bind_eq_ok hrun
    rw [ih hrun, hstep hv, since_cons_iff hv, forall_mem_cons]
    tauto

theorem mem_callsOf_run (hv : v.run fs = .ok fs') (caller called : String) :
    called ∈ callsOf fs' caller ↔
      called ∈ callsOf fs caller ∧ v.Keeps caller ∨ v.Calls fs caller called := by
  rcases Visit.run_cases hv with ⟨d, rfl, hskip, rfl⟩ | ⟨d, rfl, hskip, hwritten⟩ | ⟨a, rfl, rfl⟩
  · simp [Visit.Keeps, Visit.Calls, hskip]
  · rw [hwritten.calls_eq, (d.sameCalls_enter fs).calls_eq]
    by_cases hname : caller = d.name
    · subst hname
      rw [if_pos rfl, Definition.search, mem_calls_searchNode]
      simp [Visit.Keeps, Visit.Calls, hskip]
    · simp [Visit.Keeps, Visit.Calls, hname, Ne.symm hname]
  · rw [(lists_registerTemplateClass a fs caller).1]
    by_cases hreplaced : replacedName? a = some caller <;>
      simp [Visit.Keeps, Visit.Calls, hreplaced]

theorem mem_callersOf_run (hv : v.run fs = .ok fs') (caller called : String) :
    caller ∈ callersOf fs' called ↔
      caller ∈ callersOf fs called ∧ v.Keeps called ∨ v.Tells fs caller called := by
  rcases Visit.run_cases hv with ⟨d, rfl, hskip, rfl⟩ | ⟨d, rfl, hskip, hwritten⟩ | ⟨a, rfl, rfl⟩
  · simp [Visit.Keeps, Visit.Tells, hskip]
  · rw [hwritten.mem_callers, (d.sameCalls_enter fs).callers_eq]
    by_cases hname : caller = d.name
    · subst hname
      simp [Visit.Keeps, Visit.Tells, hskip, and_comm]
    · simp [Visit.Keeps, Visit.Tells, hname, Ne.symm hname]
  · rw [(lists_registerTemplateClass a fs called).2]
    by_cases hreplaced : replacedName? a = some called <;>
      simp [Visit.Keeps, Visit.Tells, hreplaced]

/-- When a call stands in each of its two lists. The caller has it if its definition mentions the
name. The function called has it only if it was there when the walk came to the caller, and was
told. Either is lost when a class template replaces the entry. -/
theorem mem_calls_and_mem_calledBy_iff {options : Options} {file : String} {a : Ast}
    {fs : Functions} (h : extract options file a = .ok fs) {f g : String} {F G : Function}
    (hf : fs.get? f = some F) (hg : fs.get? g = some G) :
    (f ∈ G.calls ↔ Since (fun v fs => v.Calls fs g f) g (visits file a) []) ∧
      (g ∈ F.calledBy ↔ Since (fun v fs => v.Tells fs g f) f (visits file a) []) := by
  obtain ⟨walked, hwalked, hsame⟩ := sameCalls_extract h
  constructor
  · rw [← callsOf_of_get? hg, hsame.calls_eq,
      runAll_iff_since (fun hv => mem_callsOf_run hv g f) (visits file a) hwalked]
    simp [callsOf]
  · rw [← callersOf_of_get? hf, hsame.callers_eq,
      runAll_iff_since (fun hv => mem_callersOf_run hv g f) (visits file a) hwalked]
    simp [callersOf]

/-- A call of a function that is defined further up. -/
def backwardCall : Ast := fileTree [functionTree "size" [], functionTree "main" ["size"]]

theorem mem_calledBy_backwardCall :
    ∃ fs F G, extract {} "a.cpp" backwardCall = .ok fs ∧ fs.get? "size" = some F ∧
      fs.get? "main" = some G ∧ F.calledBy = ["main"] ∧ G.calls = ["size"] ∧
      Since (fun v fs => v.Calls fs "main" "size") "main" (visits "a.cpp" backwardCall) [] ∧
      Since (fun v fs => v.Tells fs "main" "size") "size" (visits "a.cpp" backwardCall) [] := by
  obtain ⟨fs, hextract, hview⟩ : ∃ fs, extract {} "a.cpp" backwardCall = .ok fs ∧
      ((fs.get? "size").map (·.calledBy), (fs.get? "main").map (·.calls)) =
        (some ["main"], some ["size"]) :=
    exists_of_toOption_map (by decide +kernel)
  obtain ⟨hcallers, hcalls⟩ := Prod.mk.inj hview
  obtain ⟨F, hF, hF'⟩ := Option.map_eq_some_iff.1 hcallers
  obtain ⟨G, hG, hG'⟩ := Option.map_eq_some_iff.1 hcalls
  obtain ⟨hcalled, htold⟩ := mem_calls_and_mem_calledBy_iff hextract hF hG
  refine ⟨fs, F, G, hextract, hF, hG, hF', hG', hcalled.1 ?_, htold.1 ?_⟩
  · rw [hG']
    exact mem_cons_self
  · rw [hF']
    exact mem_cons_self

/-- A call of a function that is defined further down. -/
def forwardCall : Ast := fileTree [functionTree "g" ["f"], functionTree "f" []]

/-- The function called has no entry yet when the call is found, and never learns of it. -/
theorem forwardCall_not_calledBy :
    ∃ fs F G, extract {} "a.cpp" forwardCall = .ok fs ∧ fs.get? "f" = some F ∧
      fs.get? "g" = some G ∧ "f" ∈ G.calls ∧ "g" ∉ F.calledBy := by
  obtain ⟨fs, hextract, hview⟩ : ∃ fs, extract {} "a.cpp" forwardCall = .ok fs ∧
      ((fs.get? "f").map (·.calledBy), (fs.get? "g").map (·.calls)) = (some [], some ["f"]) :=
    exists_of_toOption_map (by decide +kernel)
  obtain ⟨hcallers, hcalls⟩ := Prod.mk.inj hview
  obtain ⟨F, hF, hF'⟩ := Option.map_eq_some_iff.1 hcallers
  obtain ⟨G, hG, hG'⟩ := Option.map_eq_some_iff.1 hcalls
  refine ⟨fs, F, G, hextract, hF, hG, ?_, ?_⟩
  · rw [hG']
    exact mem_cons_self
  · rw [hF']
    exact not_mem_nil

end CodeAtlas.Extraction

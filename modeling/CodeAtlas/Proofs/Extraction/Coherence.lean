import CodeAtlas.Proofs.Extraction.Callers

/-!
# Coherent entries

An entry has many marks and lists that are written apart. It is coherent if no
list repeats an item and every list or text that needs a mark has it. All
entries of an extraction are coherent and stand under their own name.

Entries are made in seven places and are coherent there. Afterwards they only
get calls, callers and the changes of `Function.Change`, and each of these keeps
an entry coherent. `Lasting` is the same of any property: what it holds of there
and what these keep is so for all entries of an extraction.

The options of an extraction say which looks follow the walk over definitions.
They do not change the call graph: two extractions of one tree agree on the
order of the names and on the core of every entry they share
(`extract_options_agree`). Only the specialization of a comparison of types may
be in one of them and not in the other. Both are compared with the walk, which
reads no option: `foreseenCore` says from the walk alone what the core under a
name is, if an extraction has that name.
-/

namespace CodeAtlas

open Dict

variable {P : Functions → Prop} {options : Options} {f g : Function} {file caller : String}
  {walked fs fs' : Functions} (info : NodeInfo)

/-- The lists have no repetitions, and what needs a mark has it. -/
structure Function.Coherent (f : Function) : Prop where
  calls : f.calls.Nodup
  calledBy : f.calledBy.Nodup
  specializations : f.specializations.Nodup
  overrides : f.overrides.Nodup
  classHierarchy : f.classHierarchy.Nodup
  sfinaeTechniques : f.sfinaeTechniques.Nodup
  conceptRequirements : f.conceptRequirements.Nodup
  constraintExpressions : f.constraintExpressions.Nodup
  hasSfinae : f.sfinaeTechniques ≠ [] → f.hasSfinae = true
  isMetafunction : f.isMetafunction = true ↔ f.metafunctionKind ≠ ""
  isConcept : f.conceptRequirements ≠ [] ∨ f.constraintExpressions ≠ [] → f.isConcept = true
  hasVariadic : f.variadicParam ≠ "" → f.hasVariadic = true
  partialSpecialization : f.primaryTemplate ≠ "" → f.partialSpecialization = true
  isVirtual : f.overrides ≠ [] → f.isVirtual = true ∧ f.isMember = true
  isOperator : f.operatorKind ≠ "" → f.isOperator = true

namespace Function

theorem Coherent.addCall (h : f.Coherent) (name : String) : (f.addCall name).Coherent :=
  { h with calls := nodup_addNew h.calls name }

theorem Coherent.addCaller (h : f.Coherent) (name : String) : (f.addCaller name).Coherent :=
  { h with calledBy := nodup_addNew h.calledBy name }

theorem Coherent.addSfinaeTechnique (h : f.Coherent) (technique : String) :
    (f.addSfinaeTechnique technique).Coherent := by
  unfold Function.addSfinaeTechnique
  split_ifs with hnew
  · exact h
  · have hnodup : (f.sfinaeTechniques ++ [technique]).Nodup := by
      have hadd := nodup_addNew h.sfinaeTechniques technique
      rwa [addNew, if_neg hnew] at hadd
    exact { h with sfinaeTechniques := hnodup, hasSfinae := fun _ => rfl }

theorem Change.coherent (h : Change f g) (hf : f.Coherent) : g.Coherent := by
  cases h with
  | technique technique => exact hf.addSfinaeTechnique technique
  | sfinae => exact { hf with hasSfinae := fun _ => rfl }
  | concept => exact { hf with isConcept := fun _ => rfl }
  | requirement h requirement =>
    exact { hf with
      conceptRequirements := nodup_addNew hf.conceptRequirements requirement
      isConcept := fun _ => h }
  | constraint h constraint =>
    exact { hf with
      constraintExpressions := nodup_addNew hf.constraintExpressions constraint
      isConcept := fun _ => h }
  | metafunction h => exact { hf with isMetafunction := iff_of_true rfl h }
  | specialized => exact { hf with partialSpecialization := fun _ => rfl }
  | primary h => exact { hf with partialSpecialization := fun _ => h }
  | pack => exact { hf with hasVariadic := fun _ => rfl }
  | specialization name =>
    exact { hf with specializations := nodup_addNew hf.specializations name }
  | operator => exact { hf with isOperator := fun _ => rfl }
  | member => exact { hf with isVirtual := fun h => ⟨(hf.isVirtual h).1, rfl⟩ }
  | virtual => exact { hf with isVirtual := fun h => ⟨rfl, (hf.isVirtual h).2⟩ }
  | override hvirtual hmember method =>
    exact { hf with
      overrides := nodup_addNew hf.overrides method
      isVirtual := fun _ => ⟨hvirtual, hmember⟩ }
  | inherit classes =>
    exact { hf with classHierarchy := nodup_addAllNew hf.classHierarchy classes }
  | details => exact { hf with }

end Function

namespace Extraction

open CodeAtlas.Function CodeAtlas.Functions

/-! ### Entries that are new -/

theorem coherent_entry (name signature className : String) (isVirtual isMember isTemplate : Bool)
    (templateParams templateTemplateParams : List String) :
    Coherent { entryOf info name with
      signature, className, isVirtual, isMember, isTemplate, templateParams,
      templateTemplateParams } := by
  constructor <;> simp [entryOf]

theorem coherent_sameTypeSpecialization (file : String) (line : Int) :
    (sameTypeSpecialization file line).Coherent := by
  constructor <;> simp [sameTypeSpecialization]

theorem nodup_firstTechniques : (firstTechniques info).Nodup := by
  unfold firstTechniques
  extract_lets text
  split <;> split <;> split <;> decide

theorem showsSfinae_of_firstTechniques {info : NodeInfo} (h : firstTechniques info ≠ []) :
    showsSfinae info = true := by
  unfold firstTechniques at h
  unfold showsSfinae
  by_cases henable : Text.occursIn "enable_if" info.displayName = true
  · simp [henable]
  · by_cases hdecltype : Text.occursIn "decltype" info.text = true
    · simp [hdecltype]
    · by_cases hvoid : Text.occursIn "void_t" info.text = true
      · simp [hvoid]
      · simp [henable, hdecltype, hvoid] at h

theorem coherent_newTemplate (a : Ast) : (newTemplate a).Coherent := by
  have hentry := coherent_entry a.info a.info.name a.info.displayName "" false false true
    (templateParams a) (templateTemplateParams a)
  refine { hentry with
    sfinaeTechniques := nodup_firstTechniques a.info
    hasSfinae := showsSfinae_of_firstTechniques
    hasVariadic := ?_ }
  dsimp only [newTemplate]
  cases parameterPack? (templateParams a) a.info.text with
  | none => exact fun h => absurd rfl h
  | some p => exact fun _ => rfl

/-! ### The walk over definitions -/

mutual

theorem findCalls_keeps (hcall : ∀ fs called, P fs → P (Dict.adjust fs caller (·.addCall called)))
    (hcaller : ∀ fs called, P fs → P (recordCaller fs caller called)) :
    ∀ (a : Ast) (fs : Functions), P fs → P (findCalls caller a fs)
  | .node info children, fs, hfs => by
    rw [findCalls]
    refine List.foldlRecOn _ _ (findCallsAmong_keeps hcall hcaller children ⟨fs, []⟩ hfs) ?_
    intro fs' hfs' called _
    unfold noteText
    split
    · exact hfs'
    · exact hcaller _ called (hcall fs' called hfs')

theorem findCallsAmong_keeps
    (hcall : ∀ fs called, P fs → P (Dict.adjust fs caller (·.addCall called)))
    (hcaller : ∀ fs called, P fs → P (recordCaller fs caller called)) :
    ∀ (l : List Ast) (s : Findings), P s.functions → P (findCallsAmong caller l s).functions
  | [], s, hs => hs
  | a :: rest, s, hs => by
    rw [findCallsAmong]
    refine findCallsAmong_keeps hcall hcaller rest _ (findCalls_keeps hcall hcaller a _ ?_)
    have hadd : ∀ called, P (s.addCall caller called).functions := by
      intro called
      unfold Findings.addCall
      split
      · exact hs
      · exact hcall s.functions called hs
    unfold noteNode
    split
    · split
      · exact hcaller _ _ (hadd _)
      · exact hs
    · split
      · exact hadd _
      · exact hs
    · exact hs

end

/-- What new entries have, and what no change, call or caller takes from them. -/
structure Lasting (Q : Function → Prop) : Prop where
  change : ∀ {f g}, Change f g → Q f → Q g
  addCall : ∀ {f}, Q f → ∀ name, Q (f.addCall name)
  addCaller : ∀ {f}, Q f → ∀ name, Q (f.addCaller name)
  entry : ∀ info name signature className isVirtual isMember isTemplate templateParams
      templateTemplateParams,
    Q { entryOf info name with
      signature, className, isVirtual, isMember, isTemplate, templateParams,
      templateTemplateParams }
  sameType : ∀ file line, Q (sameTypeSpecialization file line)
  template : ∀ a, Q (newTemplate a)

theorem lasting_coherent : Lasting Coherent where
  change := Change.coherent
  addCall := Coherent.addCall
  addCaller := Coherent.addCaller
  entry := coherent_entry
  sameType := coherent_sameTypeSpecialization
  template := coherent_newTemplate

def Named (Q : Function → Prop) (name : String) (f : Function) : Prop := f.name = name ∧ Q f

section

variable {Q : Function → Prop} (hQ : Lasting Q)
include hQ

theorem Lasting.named_change {name : String} (h : Change f g) (hf : Named Q name f) :
    Named Q name g :=
  ⟨(congrArg Core.name h.core_eq).trans hf.1, hQ.change h hf.2⟩

theorem Lasting.named_becomes {name : String} (h : f.Becomes g) (hf : Named Q name f) :
    Named Q name g :=
  h.keeps (fun _ _ => hQ.named_change) hf

theorem Lasting.findCalls (hfs : Dict.All (Named Q) fs) (caller : String) (a : Ast) :
    Dict.All (Named Q) (findCalls caller a fs) := by
  refine findCalls_keeps ?_ ?_ a fs hfs
  · intro fs called hfs
    exact hfs.adjust fun f hf => ⟨hf.1, hQ.addCall hf.2 called⟩
  · intro fs called hfs
    exact hfs.adjust fun f hf => ⟨hf.1, hQ.addCaller hf.2 caller⟩

omit hQ in
theorem all_record (hfs : Dict.All (Named Q) fs) (hf : Q f) : Dict.All (Named Q) (record fs f) := by
  unfold record
  split
  · exact hfs
  · exact hfs.set ⟨rfl, hf⟩

theorem Lasting.registerTemplateClass (hfs : Dict.All (Named Q) fs) (a : Ast) :
    Dict.All (Named Q) (registerTemplateClass a fs) := by
  unfold Extraction.registerTemplateClass
  extract_lets info text fs₁ templates params
  have h₁ : Dict.All (Named Q) fs₁ := by
    dsimp only [fs₁]
    split
    · exact all_record hfs (hQ.sameType _ _)
    · exact hfs
  split
  · cases hkind : classKind? text with
    | some kind =>
      obtain ⟨signature, hentry⟩ := becomes_classEntry hkind
      exact h₁.set (hQ.named_becomes hentry ⟨rfl, hQ.entry _ _ _ _ _ _ _ _ _⟩)
    | none =>
      dsimp only
      split
      · exact h₁
      · exact all_record h₁ (hQ.entry _ _ _ _ _ _ _ _ _)
  · exact h₁

theorem Lasting.definition {d : Definition} (hentry : Q d.entry)
    (hrefresh : ∀ f : Function, f.Becomes (d.refresh f))
    (hfinish : ∀ f : Function, Ensures f.Becomes (d.finish f)) (hfs : Dict.All (Named Q) fs)
    (h : d.run fs = .ok fs') : Dict.All (Named Q) fs' := by
  unfold Definition.run at h
  split at h
  · cases h
    exact hfs
  · have henter : Dict.All (Named Q) (d.enter fs) := by
      unfold Definition.enter
      split
      · exact hfs.adjust fun f hf => hQ.named_becomes (hrefresh f) hf
      · exact hfs.set ⟨rfl, hentry⟩
    have hfound := hQ.findCalls henter d.name d.node
    exact (become_adjustM hfinish fs' h).all (fun _ _ _ => hQ.named_change) hfound

theorem Lasting.usualVisit {v : Visit} (hv : v.Usual) (hfs : Dict.All (Named Q) fs)
    (h : v.run fs = .ok fs') : Dict.All (Named Q) fs' := by
  cases hv with
  | template a =>
    exact hQ.definition (hQ.template a) (becomes_knownTemplate a) (becomes_detectAll a) hfs h
  | templateClass a =>
    cases h
    exact hQ.registerTemplateClass hfs a
  | _ =>
    exact hQ.definition (hQ.entry _ _ _ _ _ _ _ _ _) (fun _ => .refl)
      (fun _ => ensures_ok .refl) hfs h

theorem Lasting.visit {a : Ast} (h : visit file a [] = .ok fs) : Dict.All (Named Q) fs := by
  rw [visit_eq_runAll] at h
  refine foldlM_invariant (Dict.All (Named Q)) (visits file a) ?_ (all_nil _) h
  intro fs v fs' hv hfs hrun
  exact hQ.usualVisit (below_of_mem_visits file a hv).usual hfs hrun

/-- The entries of an extraction stand under their names and have what lasts. -/
theorem Lasting.extract {a : Ast} (h : extract options file a = .ok fs) :
    Dict.All (Named Q) fs := by
  obtain ⟨walked, hwalked, hfs⟩ := become_extract h
  have hnamed := hQ.visit hwalked
  rcases hfs with hfs | ⟨seen, same, hseen, _, _, hfs⟩
  · exact hfs.all (fun _ _ _ => hQ.named_change) hnamed
  · refine hfs.all (fun _ _ _ => hQ.named_change) (Dict.All.set ?_ ?_)
    · exact hseen.all (fun _ _ _ => hQ.named_change) hnamed
    · exact ⟨rfl, hQ.sameType _ _⟩

end

theorem all_extract {a : Ast} (h : extract options file a = .ok fs) :
    Dict.All (Named Coherent) fs :=
  lasting_coherent.extract h

/-- Every entry of an extraction stands under its own name and is coherent. -/
theorem coherent_of_mem_extract {options : Options} {file : String} {a : Ast} {fs : Functions}
    (h : extract options file a = .ok fs) {name : String} {f : Function} (hf : (name, f) ∈ fs) :
    f.name = name ∧ f.Coherent :=
  all_extract h (name, f) hf

/-- A class with a virtual method that overrides the one of its base class. -/
def overridingMethod : Ast :=
  let draw : Ast :=
    .node { kind := .method, name := "draw", isDefinition := true, isVirtual := true } []
  fileTree [
    .node { kind := .classDecl, name := "Shape" } [draw],
    .node { kind := .classDecl, name := "Circle" }
      [.node { kind := .baseSpecifier, definition := some "Shape" } [], draw]]

theorem coherent_overridingMethod :
    ∃ fs f, extract {} "a.cpp" overridingMethod = .ok fs ∧ ("Circle::draw", f) ∈ fs ∧
      f.overrides = ["Shape::draw"] ∧ f.classHierarchy = ["Shape"] ∧
      f.name = "Circle::draw" ∧ f.Coherent := by
  obtain ⟨fs, h, hview⟩ : ∃ fs, extract {} "a.cpp" overridingMethod = .ok fs ∧
      (fs.get? "Circle::draw").map (fun f => (f.overrides, f.classHierarchy)) =
        some (["Shape::draw"], ["Shape"]) :=
    exists_of_toOption_map (by decide +kernel)
  obtain ⟨f, hf, hlists⟩ := Option.map_eq_some_iff.1 hview
  obtain ⟨hoverrides, hclasses⟩ := Prod.mk.inj hlists
  have hmem := Dict.mem_of_get? hf
  exact ⟨fs, f, h, hmem, hoverrides, hclasses, coherent_of_mem_extract h hmem⟩

/-! ### Options -/

/-- The core under a name, whatever the options are, if there is an entry. -/
def foreseenCore (walked : Functions) (name : String) : Option Function.Core :=
  (cores walked).get? name <|>
    if name = "is_same<T, T>" then
      (walked.get? "is_same").map fun same =>
        (sameTypeSpecialization same.filePath same.lineNumber).core
    else none

theorem foreseenCore_of_get? {name : String} {core : Function.Core}
    (h : (cores walked).get? name = some core) : foreseenCore walked name = some core := by
  simp [foreseenCore, h]

theorem foreseenCore_sameType {same : Function} (hnew : walked.has "is_same<T, T>" = false)
    (hsame : walked.get? "is_same" = some same) :
    foreseenCore walked "is_same<T, T>" =
      some (sameTypeSpecialization same.filePath same.lineNumber).core := by
  have hget : (cores walked).get? "is_same<T, T>" = none := by
    rw [← has_eq_false_iff, cores, has_mapValues]
    exact hnew
  simp [foreseenCore, hget, hsame]

theorem filter_keys_set {α : Type} (d : Dict α) (k : String) (v : α) :
    (Dict.set d k v).keys.filter (· != k) = d.keys.filter (· != k) := by
  rw [keys_set]
  split
  · rfl
  · simp

theorem foreseen_of_extract {a : Ast} (hwalked : visit file a [] = .ok walked)
    (h : extract options file a = .ok fs) :
    fs.keys.filter (· != "is_same<T, T>") = walked.keys.filter (· != "is_same<T, T>") ∧
      ∀ name f, fs.get? name = some f → foreseenCore walked name = some f.core := by
  obtain ⟨walked', hwalked', hcores⟩ := cores_extract h
  cases hwalked.symm.trans hwalked'
  have hget : ∀ name f, fs.get? name = some f → (cores fs).get? name = some f.core := by
    intro name f hf
    rw [cores, get?_mapValues, hf, Option.map_some]
  rw [← keys_mapValues Function.core fs, ← keys_mapValues Function.core walked]
  change (cores fs).keys.filter _ = (cores walked).keys.filter _ ∧ _
  rcases hcores with hcores | ⟨hnew, same, hsame, hcores⟩
  · rw [hcores] at hget ⊢
    exact ⟨rfl, fun name f hf => foreseenCore_of_get? (hget name f hf)⟩
  · rw [hcores] at hget ⊢
    refine ⟨filter_keys_set _ _ _, fun name f hf => ?_⟩
    have hcore := hget name f hf
    rw [get?_set] at hcore
    split_ifs at hcore with hname
    · rw [hname, foreseenCore_sameType hnew hsame]
      exact hcore
    · exact foreseenCore_of_get? hcore

/-- Extractions with different options have the same names in the same order, but for one, and
every entry that both have is in both the same function at the same place with the same signature,
calls and callers. -/
theorem extract_options_agree {options options' : Options} {file : String} {a : Ast}
    {fs fs' : Functions} (h : extract options file a = .ok fs)
    (h' : extract options' file a = .ok fs') :
    fs.keys.filter (· != "is_same<T, T>") = fs'.keys.filter (· != "is_same<T, T>") ∧
      ∀ name f f', fs.get? name = some f → fs'.get? name = some f' → f.core = f'.core := by
  obtain ⟨walked, hwalked, _⟩ := cores_extract h
  obtain ⟨hkeys, hcore⟩ := foreseen_of_extract hwalked h
  obtain ⟨hkeys', hcore'⟩ := foreseen_of_extract hwalked h'
  refine ⟨hkeys.trans hkeys'.symm, fun name f f' hf hf' => ?_⟩
  exact Option.some.inj ((hcore name f hf).symm.trans (hcore' name f' hf'))

/-- A comparison of types with a template as parameter, and a function that uses it. -/
def comparedTypes : Ast :=
  fileTree [
    .node { kind := .classTemplate, name := "is_same", tokens := ["class"] }
      [.node { kind := .templateParameter, name := "Pair" } []],
    functionTree "main" ["is_same"]]

/-- The specialization is there with one setting only, and the calls are the same. -/
theorem extract_options_comparedTypes :
    ∃ fs fs', extract {} "a.cpp" comparedTypes = .ok fs ∧
      extract { templates := false, virtualMethods := false } "a.cpp" comparedTypes = .ok fs' ∧
      fs.keys = ["is_same", "main", "is_same<T, T>"] ∧ fs'.keys = ["is_same", "main"] ∧
      (fs'.get? "is_same").map (·.calledBy) = some ["main"] ∧
      fs.keys.filter (· != "is_same<T, T>") = fs'.keys.filter (· != "is_same<T, T>") ∧
      ∀ name f f', fs.get? name = some f → fs'.get? name = some f' → f.core = f'.core := by
  obtain ⟨fs, h, hkeys⟩ : ∃ fs, extract {} "a.cpp" comparedTypes = .ok fs ∧
      fs.keys = ["is_same", "main", "is_same<T, T>"] :=
    exists_of_toOption_map (by decide +kernel)
  obtain ⟨fs', h', hview⟩ : ∃ fs',
      extract { templates := false, virtualMethods := false } "a.cpp" comparedTypes = .ok fs' ∧
      (fs'.keys, (fs'.get? "is_same").map (·.calledBy)) = (["is_same", "main"], some ["main"]) :=
    exists_of_toOption_map (by decide +kernel)
  obtain ⟨hkeys', hcallers⟩ := Prod.mk.inj hview
  exact ⟨fs, fs', h, h', hkeys, hkeys', hcallers, extract_options_agree h h'⟩

end Extraction

end CodeAtlas

import CodeAtlas.Proofs.Extraction.Coherence
import CodeAtlas.Search.Features

/-!
# Techniques that a question can name

A question that names a technique asks for the functions with exactly this
technique. An extraction stores a technique as one word, and a question may name
two techniques by two words. The answer to such a question is empty, whatever
was extracted, and every other technique of a question is one that some
extraction stores (`isStored_technique_iff`).

The techniques stored are words because every change adds a word
(`Function.Change`). The technique of a question is the last one of the table
whose term is in the question, so the two terms of two words, which stand last,
go before all others.
-/

namespace CodeAtlas

open CodeAtlas.Function CodeAtlas.Extraction Text List Dict

variable {f g : Function} {t : String}

/-! ### Techniques of an extraction -/

theorem Function.mem_addSfinaeTechnique (f : Function) (technique : String) :
    t ∈ (f.addSfinaeTechnique technique).sfinaeTechniques ↔
      t ∈ f.sfinaeTechniques ∨ t = technique := by
  unfold addSfinaeTechnique
  split_ifs with h
  · rw [contains_iff_mem] at h
    exact ⟨.inl, fun ht => ht.elim id (fun ht => ht ▸ h)⟩
  · simp

theorem Function.Change.mem_techniques (h : Change f g) (ht : t ∈ f.sfinaeTechniques) :
    t ∈ g.sfinaeTechniques := by
  cases h with
  | technique technique => exact (mem_addSfinaeTechnique f technique).2 (.inl ht)
  | _ => exact ht

namespace Extraction

theorem lasting_words : Lasting fun f => ∀ t ∈ f.sfinaeTechniques, ' ' ∉ t.toList where
  change h hf t ht := by
    cases h with
    | technique technique hword =>
      rcases (mem_addSfinaeTechnique _ technique).1 ht with ht | rfl
      · exact hf t ht
      · exact hword
    | _ => exact hf t ht
  addCall hf _ := hf
  addCaller hf _ := hf
  entry := by simp [entryOf]
  sameType := by simp [sameTypeSpecialization]
  template a := blank_notMem_firstTechniques a.info

/-- Some extraction has an entry with the technique. -/
def IsStored (technique : String) : Prop :=
  ∃ options file a fs name f, extract options file a = .ok fs ∧ (name, f) ∈ fs ∧
    technique ∈ f.sfinaeTechniques

theorem IsStored.blank_notMem (h : IsStored t) : ' ' ∉ t.toList := by
  obtain ⟨options, file, a, fs, name, f, hextract, hf, ht⟩ := h
  exact (lasting_words.extract hextract (name, f) hf).2 t ht

/-- A template of a class with a type as member, in whose text stands the technique. -/
def trait (technique : String) : Ast :=
  .node
    { kind := .classTemplate, name := "Trait", tokens := ["struct", "using", "type", technique] } []

theorem trait_eq : ∀ t ∈ ["enable_if", "decltype", "void_t"],
    ((!(trait t).info.name.isEmpty && occursIn "struct" (trait t).info.text) ||
        occursIn "class" (trait t).info.text) = true ∧
      classKind? (trait t).info.text = some "type_trait" ∧
      t ∈ (metafunctionEntry (trait t) "type_trait").sfinaeTechniques := by
  decide +kernel

theorem isStored_of_mem (h : t ∈ ["enable_if", "decltype", "void_t"]) : IsStored t := by
  obtain ⟨hclass, hkind, ht⟩ := trait_eq t h
  have hrun : extract ⟨false, false⟩ "" (trait t) = .ok (registerTemplateClass (trait t) []) := rfl
  obtain ⟨f, hf, hbecomes⟩ : ∃ f, ("Trait", f) ∈ registerTemplateClass (trait t) [] ∧
      Becomes (metafunctionEntry (trait t) "type_trait") f := by
    unfold registerTemplateClass
    extract_lets info text fs templates params
    rw [if_pos hclass, hkind]
    refine ⟨_, mem_of_get? ((get?_set ..).trans (if_pos rfl)), ?_⟩
    exact (becomes_detectMetafunction _ _).trans
      ((becomes_detectSfinae _ _).trans (becomes_detectSpecialization _ _))
  exact ⟨_, _, _, _, _, f, hrun, hf, hbecomes.keeps (fun _ _ => Change.mem_techniques) ht⟩

end Extraction

namespace Search

/-! ### Techniques of a question -/

def FeatureTerm.technique? : FeatureTerm → Option String
  | .technique name => some name
  | _ => none

/-- The technique of a row of the table, if its term is in the question. -/
def technique? (question : String) (row : String × FeatureTerm) : Option String :=
  if occursIn row.1 question then row.2.technique? else none

/-- What a row of the table does to the features. -/
def addRow (question : String) (features : Dict Json) (row : String × FeatureTerm) : Dict Json :=
  if occursIn row.1 question then addTerm question features row.2 else features

theorem get?_addRow (question : String) (features : Dict Json) {row : String × FeatureTerm}
    (h : row.2 ≠ .feature "sfinae_technique") :
    Dict.get? (addRow question features row) "sfinae_technique" =
      ((technique? question row).map .str).or (Dict.get? features "sfinae_technique") := by
  unfold addRow technique?
  split
  · cases hmeaning : row.2 with
    | technique name => simp [addTerm, FeatureTerm.technique?, get?_set]
    | feature name =>
      have hname : "sfinae_technique" ≠ name := fun heq => h (heq ▸ hmeaning)
      simp [addTerm, FeatureTerm.technique?, get?_set, hname]
    | kind =>
      cases hkind : kindNamed? question <;>
        simp [addTerm, hkind, FeatureTerm.technique?, get?_set]
  · rfl

/-- The last technique of the table counts. -/
theorem get?_foldl_addRow (question : String) (rows : List (String × FeatureTerm))
    (h : ∀ row ∈ rows, row.2 ≠ .feature "sfinae_technique") (features : Dict Json) :
    Dict.get? (rows.foldl (addRow question) features) "sfinae_technique" =
      ((rows.filterMap (technique? question)).getLast?.map .str).or
        (Dict.get? features "sfinae_technique") := by
  induction rows generalizing features with
  | nil => rfl
  | cons row rows ih =>
    rw [forall_mem_cons] at h
    rw [foldl_cons, ih h.2, get?_addRow question features h.1, filterMap_cons]
    cases technique? question row with
    | none => rfl
    | some name =>
      rw [getLast?_cons]
      cases (rows.filterMap (technique? question)).getLast? <;> rfl

theorem get?_detectFeatures (question : String) :
    Dict.get? (detectFeatures question) "sfinae_technique" =
      (featureTerms.filterMap (technique? (lower question))).getLast?.map .str := by
  have hrows := get?_foldl_addRow (lower question) featureTerms (by decide) []
  exact hrows.trans (Option.or_none ..)

/-- The terms of two words stand last in the table. -/
theorem filterMap_technique?_eq (question : String) :
    ∃ words ⊆ ["enable_if", "decltype", "void_t"],
      featureTerms.filterMap (technique? question) = words ++
        ((if occursIn "detection idiom" question then ["detection idiom"] else []) ++
          if occursIn "tag dispatch" question then ["tag dispatch"] else []) := by
  refine ⟨(featureTerms.take 10).filterMap (technique? question), ?_, ?_⟩
  · have hwords : ∀ row ∈ featureTerms.take 10, ∀ t ∈ row.2.technique?,
        t ∈ ["enable_if", "decltype", "void_t"] := by
      decide
    intro t ht
    obtain ⟨row, hrow, hsome⟩ := mem_filterMap.1 ht
    exact hwords row hrow t (Option.ite_none_right_eq_some.1 hsome).2
  · have hrest : (featureTerms.drop 12).filterMap (technique? question) = [] := by
      have hnone : ∀ row ∈ featureTerms.drop 12, row.2.technique? = none := by decide
      refine filterMap_eq_nil_iff.2 fun row hrow => ?_
      rw [technique?, hnone row hrow, ite_self]
    have hsplit : featureTerms = featureTerms.take 10 ++
        ([("detection idiom", .technique "detection idiom"),
          ("tag dispatch", .technique "tag dispatch")] ++ featureTerms.drop 12) := rfl
    conv_lhs => rw [hsplit]
    rw [filterMap_append, filterMap_append, hrest, append_nil]
    congr 1
    cases hidiom : occursIn "detection idiom" question <;>
      cases htag : occursIn "tag dispatch" question <;>
      simp [technique?, FeatureTerm.technique?, hidiom, htag]

/-- A question asks for a technique that can be stored exactly if it does not name the two
techniques whose names in the table have two words. -/
theorem isStored_technique_iff {question t : String}
    (h : Dict.get? (detectFeatures question) "sfinae_technique" = some (.str t)) :
    IsStored t ↔ occursIn "detection idiom" (lower question) = false ∧
      occursIn "tag dispatch" (lower question) = false := by
  obtain ⟨words, hwords, hrows⟩ := filterMap_technique?_eq (lower question)
  rw [get?_detectFeatures, hrows] at h
  obtain ⟨name, hlast, hname⟩ := Option.map_eq_some_iff.1 h
  cases hname
  cases htag : occursIn "tag dispatch" (lower question) with
  | true =>
    rw [htag, if_pos rfl, ← append_assoc, getLast?_concat] at hlast
    cases hlast
    exact iff_of_false (fun hstored => absurd hstored.blank_notMem (by decide)) (by simp)
  | false =>
    cases hidiom : occursIn "detection idiom" (lower question) with
    | true =>
      rw [htag, hidiom, if_pos rfl, if_neg Bool.false_ne_true, append_nil,
        getLast?_concat] at hlast
      cases hlast
      exact iff_of_false (fun hstored => absurd hstored.blank_notMem (by decide)) (by simp)
    | false =>
      rw [htag, hidiom, if_neg Bool.false_ne_true, if_neg Bool.false_ne_true, append_nil,
        append_nil] at hlast
      exact iff_of_true (isStored_of_mem (hwords (mem_of_getLast? hlast))) ⟨rfl, rfl⟩

theorem isStored_technique_voidType :
    Dict.get? (detectFeatures "SFINAE with enable_if and void_t") "sfinae_technique" =
      some (.str "void_t") ∧ IsStored "void_t" := by
  have h := get?_detectFeatures "SFINAE with enable_if and void_t"
  rw [show getLast? _ = some "void_t" by decide +kernel] at h
  exact ⟨h, (isStored_technique_iff h).2 (by decide +kernel)⟩

/-- No extraction has the technique that this question asks for. -/
theorem not_isStored_tagDispatch :
    Dict.get? (detectFeatures "tag dispatch") "sfinae_technique" = some (.str "tag dispatch") ∧
      ¬ IsStored "tag dispatch" := by
  have h := get?_detectFeatures "tag dispatch"
  rw [show getLast? _ = some "tag dispatch" by decide +kernel] at h
  exact ⟨h, fun hstored => absurd hstored.blank_notMem (by decide)⟩

end Search

end CodeAtlas

import CodeAtlas.Proofs.Extraction.Repetition
import CodeAtlas.Proofs.Fault

/-!
# What a look may change

The looks at templates and classes complete the entries that the walk over
definitions has made. `Function.Change` lists the changes of which all looks are
made, each with the mark that has to be there before, and `Function.Becomes` is
any number of them. What is kept by a single change is kept by all looks.
-/

namespace CodeAtlas

open List

variable {kind : String} {g : Function} (a : Ast) (f : Function)

/-- A single change that a look makes to an entry. -/
inductive Function.Change : Function → Function → Prop where
  -- techniques are words
  | technique (f : Function) (technique : String) (h : ' ' ∉ technique.toList) :
      Change f (f.addSfinaeTechnique technique)
  | sfinae (f : Function) : Change f { f with hasSfinae := true }
  | concept (f : Function) : Change f { f with isConcept := true }
  | requirement {f : Function} (h : f.isConcept = true) (requirement : String) :
      Change f (f.addConceptRequirement requirement)
  | constraint {f : Function} (h : f.isConcept = true) (constraint : String) :
      Change f (f.addConstraintExpression constraint)
  | metafunction (f : Function) {kind : String} (h : kind ≠ "") :
      Change f { f with isMetafunction := true, metafunctionKind := kind }
  | specialized (f : Function) : Change f { f with partialSpecialization := true }
  | primary {f : Function} (h : f.partialSpecialization = true) (template : String) :
      Change f { f with primaryTemplate := template }
  | pack (f : Function) (param : String) :
      Change f { f with hasVariadic := true, variadicParam := param }
  | specialization (f : Function) (name : String) : Change f (f.addSpecialization name)
  | operator (f : Function) (kind : String) :
      Change f { f with isOperator := true, operatorKind := kind }
  | member (f : Function) (className : String) :
      Change f { f with isMember := true, className := className }
  | virtual (f : Function) : Change f { f with isVirtual := true }
  | override {f : Function} (hvirtual : f.isVirtual = true) (hmember : f.isMember = true)
      (method : String) : Change f (f.addOverride method)
  | inherit (f : Function) (classes : List String) :
      Change f { f with classHierarchy := addAllNew f.classHierarchy classes }
  -- no mark goes with the parameters and names of a template, nor with the kind of a method
  | details (f : Function) (isTemplate : Bool)
      (templateParams templateTemplateParams dependentNames specializationArgs : List String)
      (isConstructor isDestructor isConst isStatic : Bool) :
      Change f { f with
        isTemplate, templateParams, templateTemplateParams, dependentNames, specializationArgs,
        isConstructor, isDestructor, isConst, isStatic }

namespace Function

/-- The entry becomes another one by changes. -/
abbrev Becomes : Function → Function → Prop := Relation.ReflTransGen Change

theorem Change.becomes {f : Function} (h : Change f g) : f.Becomes g := .single h

theorem Becomes.ite {c : Prop} [Decidable c] {f h : Function} (hg : f.Becomes g)
    (hh : f.Becomes h) : f.Becomes (if c then g else h) := by
  split
  · exact hg
  · exact hh

theorem Becomes.keeps {P : Function → Prop} {f : Function} (h : f.Becomes g)
    (hP : ∀ f g, Change f g → P f → P g) (hf : P f) : P g := by
  induction h with
  | refl => exact hf
  | tail _ hchange ih => exact hP _ _ hchange ih

theorem becomes_foldl {α : Type} {step : Function → α → Function}
    (l : List α) (hstep : ∀ (f : Function), ∀ x ∈ l, f.Becomes (step f x)) :
    f.Becomes (l.foldl step f) :=
  foldlRecOn l step .refl fun g hg x hx => hg.trans (hstep g x hx)

end Function

namespace Extraction

open CodeAtlas.Function

/-! Metafunctions. -/

theorem kindOfMembers_ne (s : MemberSigns) : kindOfMembers s ≠ "" := by
  unfold kindOfMembers
  split
  · decide
  · split
    · decide
    · split <;> decide

theorem firstKind_ne {next : String} (h : next ≠ "") (kind : String) :
    firstKind kind next ≠ "" := by
  unfold firstKind
  split_ifs with hkind
  · exact h
  · simpa using hkind

/-- A node that shows a metafunction tells a kind of it, and any other tells none. -/
theorem kinds_kindSigns :
    if (kindSigns a).shown then ∀ kind, (kindSigns a).kinds.foldl firstKind kind ≠ ""
    else (kindSigns a).kinds = [] := by
  split_ifs with hshown
  · intro kind
    have hlast : (kindSigns a).kinds = _ ++ [_] := congrArg (_ ++ ·) (if_pos hshown)
    rw [hlast, foldl_append]
    exact firstKind_ne (kindOfMembers_ne _) _
  · simp only [kindSigns, Bool.or_eq_true, not_or, Bool.not_eq_true] at hshown ⊢
    simp_all

theorem becomes_write_kindSigns : f.Becomes ((kindSigns a).write f) := by
  have hkinds := kinds_kindSigns a
  unfold KindSigns.write
  cases hlate : (kindSigns a).isLate f with
  | true =>
    rw [Bool.or_true, if_pos rfl]
    exact (Change.metafunction f (by decide)).becomes
  | false =>
    rw [Bool.or_false, if_neg Bool.false_ne_true]
    cases hshown : (kindSigns a).shown with
    | true =>
      rw [hshown] at hkinds
      rw [Bool.or_true]
      exact (Change.metafunction f (hkinds _)).becomes
    | false =>
      have hconstant : ¬ (kindSigns a).constant = true := fun h =>
        Bool.false_ne_true (hshown.symm.trans ((kindSigns a).shown_of_constant h))
      rw [hshown] at hkinds
      rw [Bool.or_false, if_neg hconstant, show (kindSigns a).kinds = [] from hkinds]
      exact .refl

theorem becomes_detectMetafunction : f.Becomes (detectMetafunction a f) := by
  rw [detectMetafunction_eq]
  refine .trans ?_ (becomes_write_kindSigns a _)
  refine becomes_foldl f _ (fun g n hn => ?_)
  unfold tagNotes at hn
  split at hn
  · rw [mem_singleton.1 hn]
    exact (Change.technique g "tag_dispatch" (by decide)).becomes
  · cases hn

/-! Substitution failure. -/

theorem becomes_addTechniqueIf (b : Bool) {technique : String} (h : ' ' ∉ technique.toList)
    : f.Becomes (addTechniqueIf b technique f) :=
  Becomes.ite (Change.technique f technique h).becomes .refl

theorem becomes_addTechniques {l : List String} (h : ∀ t ∈ l, ' ' ∉ t.toList) :
    f.Becomes (l.foldl addSfinaeTechnique f) :=
  becomes_foldl f l (fun f t ht => (Change.technique f t (h t ht)).becomes)

theorem blank_notMem_techniquesInTexts (s text : String) :
    ∀ t ∈ techniquesInTexts s text, ' ' ∉ t.toList := by
  have hnames : ∀ t ∈ sfinaePatterns.map (·.1), ' ' ∉ t.toList := by decide +kernel
  intro t ht
  obtain ⟨entry, hentry, hsome⟩ := mem_filterMap.1 ht
  rw [← Option.some.inj (Option.ite_none_right_eq_some.1 hsome).2]
  exact hnames _ (mem_map_of_mem hentry)

theorem blank_notMem_firstTechniques (info : NodeInfo) :
    ∀ t ∈ firstTechniques info, ' ' ∉ t.toList := by
  unfold firstTechniques
  extract_lets text
  split <;> split <;> split <;> decide

theorem becomes_detectSfinae : f.Becomes (detectSfinae a f) := by
  unfold detectSfinae
  extract_lets f₁ tokens text has f₂ f₃ f₄ f₅ f₆ f₇ f₈
  have h₁ : f.Becomes f₁ :=
    Becomes.ite ((Change.sfinae f).becomes.tail (.technique _ _ (by decide))) .refl
  have h₂ : f₁.Becomes f₂ := becomes_addTechniques _ (blank_notMem_techniquesInTexts _ _)
  have h₃ : f₂.Becomes f₃ := becomes_addTechniqueIf _ _ (by decide)
  have h₄ : f₃.Becomes f₄ := becomes_addTechniqueIf _ _ (by decide)
  have h₅ : f₄.Becomes f₅ := Becomes.ite
    ((Change.technique f₄ _ (by decide)).becomes.tail (.technique _ _ (by decide))) .refl
  have h₆ : f₅.Becomes f₆ := Becomes.ite
    ((Change.technique f₅ _ (by decide)).becomes.trans
      (becomes_addTechniqueIf _ _ (by decide))) .refl
  have h₇ : f₆.Becomes f₇ := becomes_addTechniqueIf _ _ (by decide)
  have h₈ : f₇.Becomes f₈ := becomes_addTechniqueIf _ _ (by decide)
  have hall : f.Becomes f₈ :=
    h₁.trans <| h₂.trans <| h₃.trans <| h₄.trans <| h₅.trans <| h₆.trans <| h₇.trans h₈
  exact Becomes.ite hall (hall.tail (.sfinae f₈))

/-! Partial specialization. -/

theorem becomes_setPrimary {f : Function} (h : f.partialSpecialization = true) :
    f.Becomes (setPrimary f) :=
  Becomes.ite (Change.primary h _).becomes .refl

theorem becomes_specialized_setPrimary :
    f.Becomes (setPrimary { f with partialSpecialization := true }) :=
  (Change.specialized f).becomes.trans (becomes_setPrimary rfl)

theorem becomes_detectSpecialization : f.Becomes (detectSpecialization a f) := by
  unfold detectSpecialization
  refine Becomes.ite .refl ?_
  extract_lets params args f₁ signs f₂ found
  have h₁ : f.Becomes f₁ := Becomes.ite (becomes_specialized_setPrimary f) .refl
  have h₂ : f.Becomes f₂ := h₁.tail (.specialized f₁)
  refine Becomes.ite (Becomes.ite h₂ ?_) h₁
  exact (h₂.tail (.details ..)).trans (becomes_setPrimary rfl)

/-! Concepts. -/

theorem becomes_require (requirement : String) : f.Becomes (require f requirement) :=
  (Change.concept f).becomes.tail (.requirement rfl requirement)

theorem becomes_requirements {α : Type} {step : Function → α → Function}
    (hstep : ∀ g x, step g x = g ∨ ∃ requirement, step g x = g.addConceptRequirement requirement)
    (l : List α) :
    f.Becomes (l.foldl step { f with isConcept := true }) := by
  refine (Change.concept f).becomes.trans ?_
  refine (foldlRecOn (motive := fun g =>
    Becomes { f with isConcept := true } g ∧ g.isConcept = true) l step ⟨.refl, rfl⟩ ?_).1
  rintro g ⟨hg, hmark⟩ x _
  rcases hstep g x with h | ⟨requirement, h⟩
  · rw [h]
    exact ⟨hg, hmark⟩
  · rw [h]
    exact ⟨hg.tail (.requirement hmark requirement), hmark⟩

theorem becomes_noteParameter (tokenText : String) (c : Ast) :
    Ensures f.Becomes (noteParameter tokenText f c) := by
  unfold noteParameter
  split
  · exact ensures_ok .refl
  · extract_lets done name written clause shown
    -- both ways of going on end in the look for a clause
    have hclause : ∀ u, Ensures f.Becomes (clause u) := by
      intro u
      dsimp only [clause]
      split
      · split
        · exact ensures_error _ _
        · split
          · refine ensures_bind fun found _ => ensures_ok ?_
            exact becomes_requirements f (fun g s => .inr ⟨Text.strip s, rfl⟩) found
          · exact ensures_ok .refl
      · exact ensures_ok .refl
    split
    · split
      · split <;> exact ensures_ok (becomes_require f _)
      · exact hclause ()
    · exact hclause ()

theorem becomes_detectConcepts : Ensures f.Becomes (detectConcepts a f) := by
  unfold detectConcepts
  extract_lets tokens text f₁ clause f₂ f₃ definition
  have h₂ : f.Becomes f₂ :=
    Becomes.ite (Becomes.ite (Change.concept f).becomes
      ((Change.concept f).becomes.tail (.constraint rfl _))) .refl
  have h₃ : f₂.Becomes f₃ := by
    refine becomes_foldl f₂ conceptPatterns ?_
    intro g p _
    split
    · exact .refl
    · refine becomes_requirements g ?_ _
      intro g m
      split
      · exact .inl rfl
      · exact .inr ⟨m.whole, rfl⟩
  refine ensures_bind fun f₄ hf₄ => ?_
  have h₄ : f.Becomes f₄ :=
    foldlM_invariant f.Becomes a.children
      (fun g c g' _ hg hg' => hg.trans (becomes_noteParameter g text c g' hg')) (h₂.trans h₃) hf₄
  split
  · exact ensures_ok h₄
  · have hdefinition := h₄.trans (becomes_require f₄ (Text.strip (Text.join " " definition)))
    split
    · exact ensures_ok (hdefinition.tail (.metafunction _ (by decide)))
    · exact ensures_ok hdefinition

theorem becomes_detectAll : Ensures f.Becomes (detectAll a f) := by
  unfold detectAll
  refine ensures_bind fun g hg => ensures_ok ?_
  refine .trans ?_ (becomes_detectSpecialization a g)
  refine .trans ?_ (becomes_detectConcepts a _ g hg)
  exact (becomes_detectMetafunction a f).trans (becomes_detectSfinae a _)

/-! Templates that are known, and templates that are completed. -/

theorem becomes_knownTemplate : f.Becomes (knownTemplate a f) := by
  unfold knownTemplate
  extract_lets params f₁ f₂ templates f₃
  have h₁ : f.Becomes f₁ := (Change.details f ..).becomes
  have h₂ : f₁.Becomes f₂ := by
    dsimp only [f₂]
    split
    · exact (Change.pack f₁ _).becomes
    · exact .refl
  have h₃ : f₂.Becomes f₃ := Becomes.ite .refl (Change.details f₂ ..).becomes
  have hall : f.Becomes f₃ := h₁.trans (h₂.trans h₃)
  exact Becomes.ite ((hall.tail (.sfinae f₃)).trans
    (becomes_addTechniques _ (blank_notMem_firstTechniques _))) hall

theorem becomes_completeTemplate : Ensures f.Becomes (completeTemplate a f) := by
  unfold completeTemplate
  extract_lets signs text f₁ f₂ f₃
  have h₁ : f.Becomes f₁ := (Change.details f ..).becomes
  have h₂ : f₁.Becomes f₂ := by
    dsimp only [f₂]
    split
    · exact (Change.pack f₁ _).becomes.trans (becomes_addTechniqueIf _ _ (by decide))
    · exact .refl
  have h₃ : f₂.Becomes f₃ := Becomes.ite .refl (Change.details f₂ ..).becomes
  refine ensures_bind fun g hg => ensures_ok ?_
  exact (h₁.trans (h₂.trans (h₃.trans (becomes_detectAll a f₃ g hg)))).tail (.details ..)

/-! Class templates that are metafunctions. -/

theorem classKind?_ne {text : String} (h : classKind? text = some kind) : kind ≠ "" := by
  unfold classKind? at h
  extract_lets has at h
  split at h
  · cases h
    decide
  · split at h
    · cases h
      decide
    · cases h

theorem becomes_metafunctionEntry (h : kind ≠ "") :
    ∃ signature, Becomes { entryOf a.info a.info.name with signature }
      (metafunctionEntry a kind) := by
  unfold metafunctionEntry
  extract_lets plain name text params start f₁ f₂
  refine ⟨f₁.signature, ?_⟩
  have h₁ : Becomes { plain with signature := f₁.signature } f₁ :=
    (Change.metafunction _ h).becomes.tail (.details ..)
  have h₂ : f₁.Becomes f₂ := Becomes.ite (becomes_specialized_setPrimary f₁) .refl
  refine h₁.trans (h₂.trans (becomes_foldl f₂ _ ?_))
  intro f t ht
  have hword : ' ' ∉ t.toList := by
    revert t
    decide
  exact Becomes.ite ((Change.sfinae f).becomes.tail (.technique _ t hword)) .refl

theorem becomes_classEntry {a : Ast} (h : classKind? a.info.text = some kind) :
    ∃ signature, Becomes { entryOf a.info a.info.name with signature }
      (detectSpecialization a
        (detectSfinae a (detectMetafunction a (metafunctionEntry a kind)))) := by
  obtain ⟨signature, hentry⟩ := becomes_metafunctionEntry a (classKind?_ne h)
  refine ⟨signature, hentry.trans ((becomes_detectMetafunction a _).trans ?_)⟩
  exact (becomes_detectSfinae a _).trans (becomes_detectSpecialization a _)

end Extraction

end CodeAtlas

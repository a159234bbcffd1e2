import CodeAtlas.Extraction.File
import CodeAtlas.Proofs.Dict

/-!
# Looks repeated

A function template is looked at twice with the same four looks. The second time
changes nothing (`detectAll_twice`).

Most of what a look writes are notes: items of lists and marks. Which notes it
writes depends on the node alone, and a note that is there already is not
written again (`Note`, `Writes`). Three things are not of this kind. The kind of
a metafunction is set by one look and replaced by a later one, so the second
time the first look disturbs it and the later one restores it
(`KindSigns.define_write_of_outline`). A function that shows a technique is marked whatever
the technique is. And the arguments of a specialization are counted before they
are replaced, so the count may turn out differently the second time; what it
would set then is set already (`detectSpecialization_twice`).
-/

namespace CodeAtlas.Extraction

open Text List

variable {g : Function} {n : Note} {next : Function → Except Fault Function} (a : Ast)
  (finish : Function → Function) (text : String) (s : KindSigns) (b : Bool) (kinds : List String)
  (f : Function) (notes tags techniques concepts : List Note)

/-- What a look writes into an entry, whatever stands there. -/
inductive Note where
  | technique (technique : String)
  | sfinae
  | concept
  | requirement (requirement : String)
  | constraint (constraint : String)

namespace Note

def write (f : Function) : Note → Function
  | .technique t => f.addSfinaeTechnique t
  | .sfinae => { f with hasSfinae := true }
  | .concept => { f with isConcept := true }
  | .requirement r => f.addConceptRequirement r
  | .constraint c => f.addConstraintExpression c

def IsIn (f : Function) : Note → Prop
  | .technique t => t ∈ f.sfinaeTechniques
  | .sfinae => f.hasSfinae = true
  | .concept => f.isConcept = true
  | .requirement r => r ∈ f.conceptRequirements
  | .constraint c => c ∈ f.constraintExpressions

theorem addSfinaeTechnique_eq (technique : String) :
    f.addSfinaeTechnique technique =
      { f with
        sfinaeTechniques := addNew f.sfinaeTechniques technique
        hasSfinae := f.hasSfinae || !f.sfinaeTechniques.contains technique } := by
  unfold Function.addSfinaeTechnique addNew
  cases f.sfinaeTechniques.contains technique <;> simp

theorem write_of_isIn {f : Function} (h : n.IsIn f) : write f n = f := by
  cases n with
  | technique t => exact if_pos (contains_iff_mem.2 h)
  | sfinae =>
    cases f
    cases h
    rfl
  | concept =>
    cases f
    cases h
    rfl
  | requirement r => rw [write, Function.addConceptRequirement, addNew_eq_self h]
  | constraint c => rw [write, Function.addConstraintExpression, addNew_eq_self h]

theorem isIn_write (n : Note) : n.IsIn (write f n) := by
  cases n with
  | technique t =>
    rw [write, addSfinaeTechnique_eq]
    exact mem_addNew.2 (.inr rfl)
  | sfinae => rfl
  | concept => rfl
  | requirement r => exact mem_addNew.2 (.inr rfl)
  | constraint c => exact mem_addNew.2 (.inr rfl)

theorem IsIn.write {f : Function} (h : n.IsIn f) (m : Note) : n.IsIn (m.write f) := by
  cases m <;> cases n <;>
    simp_all [write, IsIn, addSfinaeTechnique_eq, mem_addNew, Function.addConceptRequirement,
      Function.addConstraintExpression]

theorem foldl_write_of_isIn {f : Function} {notes : List Note} (h : ∀ n ∈ notes, n.IsIn f) :
    notes.foldl write f = f := by
  induction notes with
  | nil => rfl
  | cons n notes ih =>
    obtain ⟨hn, hnotes⟩ := forall_mem_cons.1 h
    rw [foldl_cons, write_of_isIn hn, ih hnotes]

theorem IsIn.foldl_write {f : Function} (h : n.IsIn f) (notes : List Note) :
    n.IsIn (notes.foldl Note.write f) :=
  foldlRecOn (motive := fun g => n.IsIn g) notes Note.write h fun _ hg m _ => hg.write m

theorem isIn_foldl_write : ∀ n ∈ notes, n.IsIn (notes.foldl write f) := by
  induction notes generalizing f with
  | nil => exact fun n hn => by cases hn
  | cons n notes ih =>
    exact forall_mem_cons.2 ⟨(isIn_write f n).foldl_write notes, ih (write f n)⟩

end Note

open Note

def outline (f : Function) : Bool × List String × Bool × String :=
  (f.isTemplate, f.templateParams, f.isMetafunction, f.metafunctionKind)

theorem outline_foldl_write : outline (notes.foldl write f) = outline f := by
  refine foldlRecOn (motive := fun g => outline g = outline f) notes write rfl ?_
  intro g hg n _
  cases n with
  | technique t => rwa [write, addSfinaeTechnique_eq]
  | _ => exact hg

def noted (f : Function) : List String × Bool × Bool × List String × List String :=
  (f.sfinaeTechniques, f.hasSfinae, f.isConcept, f.conceptRequirements, f.constraintExpressions)

theorem isIn_of_noted_eq {f : Function} (h : noted f = noted g) (hn : n.IsIn f) : n.IsIn g := by
  cases n <;> simp_all [IsIn, noted]

def IsMarked (f : Function) : Prop := f.sfinaeTechniques ≠ [] → f.hasSfinae = true

theorem isMarked_of_noted_eq {f : Function} (h : noted f = noted g) (hf : IsMarked f) :
    IsMarked g := by
  simp_all [IsMarked, noted]

theorem IsMarked.foldl_write {f : Function} (h : IsMarked f) (notes : List Note) :
    IsMarked (notes.foldl write f) := by
  refine foldlRecOn (motive := IsMarked) notes write h ?_
  intro g hg n _
  cases n with
  | technique t =>
    unfold write Function.addSfinaeTechnique
    dsimp only
    split
    · exact hg
    · exact fun _ => rfl
  | sfinae => exact fun _ => rfl
  | _ => exact hg

/-! ### Substitution failure -/

def markSfinae (f : Function) : Function :=
  if f.sfinaeTechniques.isEmpty then f else { f with hasSfinae := true }

theorem isMarked_markSfinae : IsMarked (markSfinae f) := by
  unfold markSfinae
  split_ifs with h
  · exact fun hne => absurd (isEmpty_iff.1 h) hne
  · exact fun _ => rfl

theorem IsMarked.markSfinae_eq {f : Function} (h : IsMarked f) : markSfinae f = f := by
  unfold markSfinae
  split_ifs with hne
  · rfl
  · exact write_of_isIn (n := .sfinae) (h fun hnil => hne (isEmpty_iff.2 hnil))

theorem outline_markSfinae : outline (markSfinae f) = outline f := by
  unfold markSfinae
  split <;> rfl

theorem isIn_markSfinae {f : Function} (h : n.IsIn f) : n.IsIn (markSfinae f) := by
  unfold markSfinae
  split
  · exact h
  · exact h.write .sfinae

theorem ite_write (f : Function) :
    (if b then notes.foldl write f else f) = (if b then notes else []).foldl write f := by
  cases b <;> rfl

theorem addTechniqueIf_eq (technique : String) :
    addTechniqueIf b technique f = (if b then [.technique technique] else []).foldl write f := by
  cases b <;> rfl

theorem foldl_addSfinaeTechnique (l : List String) (f : Function) :
    l.foldl Function.addSfinaeTechnique f = (l.map Note.technique).foldl write f := by
  rw [foldl_map]
  rfl

theorem ite_addSfinaeTechnique (first second : String) :
    (if b then (f.addSfinaeTechnique first).addSfinaeTechnique second else f) =
      (if b then [.technique first, .technique second] else []).foldl write f :=
  ite_write b [.technique first, .technique second] f

theorem ite_addTechniqueIf (b' : Bool) (first second : String) :
    (if b then addTechniqueIf b' second (f.addSfinaeTechnique first) else f) =
      (if b then .technique first :: (if b' then [.technique second] else []) else []).foldl
        write f := by
  cases b
  · rfl
  · exact addTechniqueIf_eq b' _ second

theorem exists_notes_detectSfinae (isTemplate : Bool) :
    ∃ notes : List Note, ∀ f : Function, f.isTemplate = isTemplate →
      detectSfinae a f = markSfinae (notes.foldl write f) := by
  apply Exists.intro
  intro f hf
  unfold detectSfinae
  extract_lets f₁ tokens text has f₂ f₃ f₄ f₅ f₆ f₇ f₈
  have h₁ : f₁ = _ := (if_congr (by rw [hf]) rfl rfl).trans
    (ite_write (isTemplate && occursIn "enable_if" a.info.displayName)
      [.sfinae, .technique "enable_if"] f)
  have h₂ : f₂ = _ := foldl_addSfinaeTechnique (techniquesInTexts tokens text) f₁
  have h₃ : f₃ = _ := addTechniqueIf_eq _ f₂ _
  have h₄ : f₄ = _ := addTechniqueIf_eq _ f₃ _
  have h₅ : f₅ = _ := ite_addSfinaeTechnique _ f₄ _ _
  have h₆ : f₆ = _ := ite_addTechniqueIf _ f₅ _ _ _
  have h₇ : f₇ = _ := addTechniqueIf_eq _ f₆ _
  have h₈ : f₈ = _ := addTechniqueIf_eq _ f₇ _
  change markSfinae f₈ = _
  rw [h₈, h₇, h₆, h₅, h₄, h₃, h₂, h₁]
  simp only [← foldl_append]
  rfl

/-! ### Concepts -/

/-- A step that writes the same notes into every entry and then does the same, or fails on every
entry. -/
def Writes (finish : Function → Function) (step : Function → Except Fault Function) : Prop :=
  ∃ notes : Except Fault (List Note), ∀ f,
    step f = notes.map fun notes => finish (notes.foldl write f)

theorem writes_ok : Writes finish fun f => .ok (finish (notes.foldl write f)) :=
  ⟨.ok notes, fun _ => rfl⟩

theorem writes_error (e : Fault) : Writes finish fun _ => .error e := ⟨.error e, fun _ => rfl⟩

theorem Writes.bind {finish : Function → Function} {step : Function → Except Fault Function}
    (hstep : Writes id step) (hnext : Writes finish next) :
    Writes finish fun f => step f >>= next := by
  obtain ⟨notes, hnotes⟩ := hstep
  obtain ⟨more, hmore⟩ := hnext
  cases notes with
  | error e => exact ⟨.error e, fun f => congrArg (· >>= next) (hnotes f)⟩
  | ok notes =>
    refine ⟨more.map (notes ++ ·), fun f => ?_⟩
    refine (congrArg (· >>= next) (hnotes f)).trans ((hmore _).trans ?_)
    cases more with
    | error e => rfl
    | ok more => simp [Except.map]

theorem Writes.after {step : Function → Function} (hnext : Writes id next)
    (hstep : Writes id fun f => .ok (step f)) : Writes id fun f => next (step f) :=
  hstep.bind hnext

theorem writes_foldlM {α : Type} {step : Function → α → Except Fault Function}
    (h : ∀ x, Writes id (step · x)) (l : List α) : Writes id (l.foldlM step) := by
  induction l with
  | nil => exact writes_ok id []
  | cons x l ih => exact (h x).bind ih

theorem writes_foldl {α : Type} {step : Function → α → Function}
    (h : ∀ x, Writes id fun f => .ok (step f x)) (l : List α) :
    Writes id fun f => .ok (l.foldl step f) := by
  induction l with
  | nil => exact writes_ok id []
  | cons x l ih => exact ih.after (h x)

theorem writes_require (requirement : String) : Writes id fun f => .ok (require f requirement) :=
  writes_ok id [.concept, .requirement requirement]

def noteClause (text : String) (c : Ast) (f : Function) : Except Fault Function :=
  if occursIn "requires" text && !c.info.tokens.isEmpty then
    match Pattern.parse
        ("requires\\s+[A-Za-z0-9_]+<\\s*" ++ c.info.tokens.getLastD "" ++ "\\s*>") with
    | .error e => .error (.pattern e.message)
    | .ok p =>
      if p.foundIn text then do
        let found ← stretches p text
        return found.foldl (fun f s => f.addConceptRequirement (strip s))
          { f with isConcept := true }
      else .ok f
  else .ok f

theorem writes_noteClause (c : Ast) : Writes id (noteClause text c) := by
  unfold noteClause
  split
  · split
    · exact writes_error id _
    · next p _ =>
        split
        · cases stretches p text with
          | error e => exact writes_error id e
          | ok found =>
            have hfound := writes_foldl
              (fun s => writes_ok id [.requirement (strip s)]) found
            exact hfound.after (writes_ok id [.concept])
        · exact writes_ok id []
  · exact writes_ok id []

theorem writes_noteParameter (c : Ast) : Writes id (noteParameter text · c) := by
  unfold noteParameter
  split
  · exact writes_ok id []
  · dsimp only
    split
    · split
      · split <;> exact writes_require _
      · exact writes_noteClause text c
    · exact writes_noteClause text c

def define (b : Bool) (f : Function) : Function :=
  if b then { f with isMetafunction := true, metafunctionKind := "concept_definition" } else f

theorem outline_define :
    outline (define b f) =
      (f.isTemplate, f.templateParams, f.isMetafunction || b,
        if b then "concept_definition" else f.metafunctionKind) := by
  cases b <;> simp [outline, define]

theorem outline_define_congr {f : Function} (h : outline f = outline g) :
    outline (define b f) = outline (define b g) := by
  rw [outline_define, outline_define]
  simp_all [outline]

theorem noted_define : noted (define b f) = noted f := by
  cases b <;> rfl

def noteRequires (tokens : List String) (f : Function) : Function :=
  if tokens.contains "requires" then
    let f := { f with isConcept := true }
    let clause := requiresClause 0 ((tokens.dropWhile (· != "requires")).tail)
    if clause.isEmpty then f
    else f.addConstraintExpression (strip (join " " clause))
  else f

theorem writes_noteRequires (tokens : List String) :
    Writes id fun f => .ok (noteRequires tokens f) := by
  unfold noteRequires
  split
  · dsimp only
    split
    · exact writes_ok id [.concept]
    · exact writes_ok id [.concept, .constraint _]
  · exact writes_ok id []

def notePattern (text : String) (f : Function) (p : Pattern) : Function :=
  match p.findAll text with
  | [] => f
  | found =>
    found.foldl (fun f m => if m.whole.isEmpty then f else f.addConceptRequirement m.whole)
      { f with isConcept := true }

theorem writes_notePattern (p : Pattern) : Writes id fun f => .ok (notePattern text f p) := by
  unfold notePattern
  split
  · exact writes_ok id []
  · refine (writes_foldl ?_ _).after (writes_ok id [.concept])
    intro m
    split
    · exact writes_ok id []
    · exact writes_ok id [.requirement m.whole]

def noteDefinition (definition : List String) (f : Function) : Except Fault Function := do
  if definition.isEmpty then return f
  let f := require f (strip (join " " definition))
  if definition.length > 1 then
    return { f with isMetafunction := true, metafunctionKind := "concept_definition" }
  return f

theorem writes_noteDefinition (definition : List String) :
    Writes (define (definition.length > 1)) (noteDefinition definition) := by
  unfold noteDefinition
  split
  · next hnone =>
      rw [isEmpty_iff.1 hnone]
      exact writes_ok (define false) []
  · split_ifs with hlong
    · rw [decide_eq_true hlong]
      exact writes_ok (define true) [.concept, .requirement _]
    · rw [decide_eq_false hlong]
      exact writes_ok (define false) [.concept, .requirement _]

theorem detectConcepts_eq :
    detectConcepts a f =
      let tokens := a.children.flatMap (·.info.tokens)
      let text := join " " tokens
      a.children.foldlM (noteParameter text)
        (conceptPatterns.foldl (notePattern text) (noteRequires tokens f)) >>=
          noteDefinition (conceptDefinition tokens) := rfl

theorem writes_detectConcepts : ∃ b, Writes (define b) (detectConcepts a) := by
  rw [funext (detectConcepts_eq a)]
  have hclause := writes_noteRequires (a.children.flatMap (·.info.tokens))
  generalize a.children.flatMap (·.info.tokens) = tokens at hclause ⊢
  have hpatterns := writes_foldl (writes_notePattern (join " " tokens)) conceptPatterns
  have hparameters := writes_foldlM (writes_noteParameter (join " " tokens)) a.children
  exact ⟨_, ((hparameters.after hpatterns).after hclause).bind (writes_noteDefinition _)⟩

/-! ### Metafunctions -/

def firstKind (kind next : String) : String := if kind.isEmpty then next else kind

theorem setKind_eq (kind : String) :
    setKind f kind = { f with metafunctionKind := firstKind f.metafunctionKind kind } := by
  unfold setKind firstKind
  split <;> rfl

theorem foldl_setKind :
    kinds.foldl setKind f =
      { f with metafunctionKind := kinds.foldl firstKind f.metafunctionKind } := by
  induction kinds generalizing f with
  | nil => rfl
  | cons kind kinds ih => rw [foldl_cons, ih, setKind_eq, foldl_cons]

theorem foldl_firstKind_of_ne {kind : String} (h : kind ≠ "") :
    kinds.foldl firstKind kind = kind := by
  have hkind : kind.isEmpty = false := by simpa using h
  induction kinds with
  | nil => rfl
  | cons next kinds ih => rw [foldl_cons, firstKind, if_neg (by simp [hkind]), ih]

theorem foldl_firstKind_twice (kind : String) :
    kinds.foldl firstKind (kinds.foldl firstKind kind) = kinds.foldl firstKind kind := by
  by_cases hkind : kind = ""
  · by_cases hfound : kinds.foldl firstKind kind = ""
    · rw [hfound, ← hkind, hfound, hkind]
    · exact foldl_firstKind_of_ne kinds hfound
  · rw [foldl_firstKind_of_ne _ hkind, foldl_firstKind_of_ne _ hkind]

/-- What a node shows of a metafunction. -/
structure KindSigns where
  constant : Bool
  shown : Bool
  /-- It uses templates of the standard library. -/
  standard : Bool
  /-- The kinds that suggest themselves, in their order. -/
  kinds : List String
  /-- A constant value is a sign of a metafunction. -/
  shown_of_constant : constant = true → shown = true

namespace KindSigns

/-- A template that is no metafunction otherwise is one if it uses the standard library. -/
def isLate (s : KindSigns) (f : Function) : Bool :=
  !(f.isMetafunction || s.shown) && (f.isTemplate && !f.templateParams.isEmpty && s.standard)

def write (s : KindSigns) (f : Function) : Function :=
  { f with
    isMetafunction := f.isMetafunction || s.shown || s.isLate f
    metafunctionKind :=
      if s.isLate f then "function_meta"
      else s.kinds.foldl firstKind (if s.constant then "value_trait" else f.metafunctionKind) }

end KindSigns

theorem value_of_constant (l : List Ast) :
    (l.foldl MemberSigns.add {}).constant = true → (l.foldl MemberSigns.add {}).value = true := by
  refine foldlRecOn (motive := fun s => s.constant = true → s.value = true)
    l MemberSigns.add ?_ ?_
  · intro h
    cases h
  · intro s hs c _
    unfold MemberSigns.add
    cases c.kind with
    | field =>
      dsimp only
      split
      · exact fun _ => rfl
      · exact hs
    | typeDef =>
      dsimp only
      split <;> exact hs
    | _ => exact hs

def kindSigns (a : Ast) : KindSigns :=
  let signs := a.children.foldl MemberSigns.add {}
  let has := fun p => occursIn p a.info.text
  let kinds := kindsInText a.info.text
  let standard := has "std::type_traits" || has "std::is_"
  let shown := signs.value || signs.type || signs.transform || !kinds.isEmpty || standard
  { constant := signs.constant
    shown
    standard := has "std::" && has "<" && has ">"
    kinds := kinds ++ (if standard then ["type_trait"] else []) ++
      if shown then [kindOfMembers signs] else []
    shown_of_constant := fun h => by simp [shown, signs, value_of_constant a.children h] }

def tagNotes (a : Ast) : List Note :=
  if occursIn "true_type" a.info.text || occursIn "false_type" a.info.text then
    [.technique "tag_dispatch"]
  else []

theorem addSfinaeTechnique_withKind (technique kind : String) :
    { f with metafunctionKind := kind }.addSfinaeTechnique technique =
      { f.addSfinaeTechnique technique with metafunctionKind := kind } := by
  rw [addSfinaeTechnique_eq, addSfinaeTechnique_eq]

theorem detectMetafunction_eq :
    detectMetafunction a f = (kindSigns a).write ((tagNotes a).foldl Note.write f) := by
  unfold detectMetafunction
  extract_lets text signs f₁ f₂ kinds f₃ standard f₄ f₅
  let shown := signs.value || signs.type || signs.transform || !kinds.isEmpty || standard
  let g := (tagNotes a).foldl Note.write f
  let start := if signs.constant then "value_trait" else g.metafunctionKind
  have hkind : g.metafunctionKind = f.metafunctionKind :=
    congrArg (·.2.2.2) (outline_foldl_write f (tagNotes a))
  have hg : g = _ := (ite_write _ [.technique "tag_dispatch"] f).symm
  have h₁ : f₁ = { f with metafunctionKind := start } := by
    dsimp only [f₁, start]
    rw [hkind]
    split <;> rfl
  have h₂ : f₂ = { g with metafunctionKind := start } := by
    dsimp only [f₂]
    rw [h₁, hg, addSfinaeTechnique_withKind]
    split <;> rfl
  have h₃ : f₃ = { g with metafunctionKind := kinds.foldl firstKind start } := by
    dsimp only [f₃]
    rw [foldl_setKind, h₂]
  have h₄ : f₄ = { g with
      metafunctionKind :=
        (kinds ++ if standard then ["type_trait"] else []).foldl firstKind start } := by
    dsimp only [f₄]
    rw [setKind_eq, h₃, foldl_append]
    split <;> rfl
  have h₅ : f₅ = { g with
      isMetafunction := g.isMetafunction || shown
      metafunctionKind := (kindSigns a).kinds.foldl firstKind start } := by
    have hkinds : (kindSigns a).kinds.foldl firstKind start =
        (if shown then [kindOfMembers signs] else []).foldl firstKind
          ((kinds ++ if standard then ["type_trait"] else []).foldl firstKind start) :=
      foldl_append
    have hf₅ : f₅ = if shown then setKind { f₄ with isMetafunction := true } (kindOfMembers signs)
      else f₄ := rfl
    rw [hf₅, hkinds, setKind_eq, h₄]
    cases shown <;> simp
  have hlate : (!f₅.isMetafunction && f₅.isTemplate && !f₅.templateParams.isEmpty &&
      occursIn "std::" text && occursIn "<" text && occursIn ">" text) =
      (kindSigns a).isLate g := by
    rw [h₅]
    simp only [KindSigns.isLate, kindSigns, Bool.and_assoc]
    rfl
  have hwrite : (kindSigns a).write g = { g with
      isMetafunction := g.isMetafunction || shown || (kindSigns a).isLate g
      metafunctionKind :=
        if (kindSigns a).isLate g then "function_meta"
        else (kindSigns a).kinds.foldl firstKind start } := rfl
  refine Eq.trans ?_ hwrite.symm
  rw [hlate, h₅]
  cases (kindSigns a).isLate g with
  | true =>
    rw [Bool.or_true]
    rfl
  | false =>
    rw [Bool.or_false]
    rfl

theorem withKind_eq_self {f : Function} {isMetafunction : Bool} {kind : String}
    (hmark : f.isMetafunction = isMetafunction) (hkind : f.metafunctionKind = kind) :
    { f with isMetafunction, metafunctionKind := kind } = f := by
  subst hmark hkind
  rfl

namespace KindSigns

theorem metafunctionKind_write_of_constant (h : s.constant = true) :
    (s.write f).metafunctionKind = "value_trait" := by
  have hlate : s.isLate f = false := by simp [isLate, s.shown_of_constant h]
  simp only [write, hlate, h, if_true, Bool.false_eq_true, if_false]
  exact foldl_firstKind_of_ne s.kinds (by decide)

theorem foldl_metafunctionKind_write :
    s.kinds.foldl firstKind (s.write f).metafunctionKind = (s.write f).metafunctionKind := by
  unfold write
  dsimp only
  split
  · exact foldl_firstKind_of_ne s.kinds (by decide)
  · exact foldl_firstKind_twice s.kinds _

theorem write_of_outline {x f : Function} (h : outline f = outline (s.write x)) :
    s.write f = f := by
  have htemplate : f.isTemplate = x.isTemplate := congrArg (·.1) h
  have hparams : f.templateParams = x.templateParams := congrArg (·.2.1) h
  have hmark : f.isMetafunction = (x.isMetafunction || s.shown || s.isLate x) :=
    congrArg (·.2.2.1) h
  have hkind : f.metafunctionKind = (s.write x).metafunctionKind := congrArg (·.2.2.2) h
  have hlate : s.isLate f = false := by
    -- a template that would be marked late was marked at the first look
    rw [isLate, hmark, isLate, htemplate, hparams]
    generalize (x.isTemplate && !x.templateParams.isEmpty && s.standard) = uses
    cases x.isMetafunction <;> cases s.shown <;> cases uses <;> rfl
  refine withKind_eq_self ?_ ?_
  · rw [hlate, hmark]
    cases x.isMetafunction <;> cases s.shown <;> simp
  · rw [hlate, if_neg Bool.false_ne_true]
    split_ifs with hconstant
    · rw [hkind, s.metafunctionKind_write_of_constant x hconstant]
      exact (foldl_firstKind_of_ne s.kinds (by decide)).symm
    · rw [hkind, s.foldl_metafunctionKind_write x]

/-- The look for metafunctions may disturb the kind of a function that defines a concept, and the
look for concepts restores it. -/
theorem define_write_of_outline {x f : Function} (h : outline f = outline (define b (s.write x))) :
    define b (s.write f) = f := by
  cases b with
  | true =>
    rw [outline_define] at h
    have hmark : f.isMetafunction = ((s.write x).isMetafunction || true) := congrArg (·.2.2.1) h
    rw [Bool.or_true] at hmark
    exact withKind_eq_self hmark (congrArg (·.2.2.2) h)
  | false => exact s.write_of_outline h

end KindSigns

/-! ### Partial specialization -/

def hasFewArgs (f : Function) : Bool :=
  !f.templateParams.isEmpty && !f.specializationArgs.isEmpty &&
    decide (f.templateParams.length > f.specializationArgs.length)

def mixes (a : Ast) (params : List String) : Bool :=
  let signs := a.children.foldl (SpecializationSigns.add params) {}
  signs.concrete && signs.parameter

def replacesArgs (a : Ast) (params : List String) : Bool :=
  mixes a params && !(specializationTokens false a.info.tokens).isEmpty

def primaryName (f : Function) : String :=
  if occursIn "<" f.name then (split f.name "<").headD "" else f.primaryTemplate

/-- Setting the primary template does not change what is read from the name. -/
theorem primaryName_congr {f : Function} (hname : g.name = f.name)
    (hprimary : g.primaryTemplate = f.primaryTemplate ∨ g.primaryTemplate = primaryName f) :
    primaryName g = primaryName f := by
  unfold primaryName at hprimary ⊢
  rw [hname]
  split_ifs with hplain
  · rfl
  · rw [if_neg hplain, or_self] at hprimary
    exact hprimary

theorem setPrimary_eq : setPrimary f = { f with primaryTemplate := primaryName f } := by
  unfold setPrimary primaryName
  split <;> rfl

def specialized (f : Function) (isPartial : Bool) (args : List String) (primary : String) :
    Function :=
  { f with
    partialSpecialization := isPartial, specializationArgs := args, primaryTemplate := primary }

theorem specialized_eq_self {f : Function} {isPartial : Bool} {args : List String}
    {primary : String} (hpartial : f.partialSpecialization = isPartial)
    (hargs : f.specializationArgs = args) (hprimary : f.primaryTemplate = primary) :
    specialized f isPartial args primary = f := by
  subst hpartial hargs hprimary
  rfl

theorem detectSpecialization_eq {f : Function} (h : f.isTemplate = true) :
    detectSpecialization a f =
      specialized f (f.partialSpecialization || hasFewArgs f || mixes a f.templateParams)
        (if replacesArgs a f.templateParams then
          [join " " (specializationTokens false a.info.tokens)] else f.specializationArgs)
        (if hasFewArgs f || replacesArgs a f.templateParams then primaryName f
          else f.primaryTemplate) := by
  unfold detectSpecialization
  refine (if_neg (by simp [h])).trans ?_
  extract_lets params args f₁ signs f₂ found
  have h₁ : f₁ = specialized f (f.partialSpecialization || hasFewArgs f) f.specializationArgs
      (if hasFewArgs f then primaryName f else f.primaryTemplate) := by
    have hfew : f₁ =
        if hasFewArgs f then setPrimary { f with partialSpecialization := true } else f := rfl
    rw [hfew, setPrimary_eq]
    cases hasFewArgs f with
    | true => simp [specialized, primaryName]
    | false => simp [specialized]
  have hprimary : ∀ args, primaryName { f₂ with specializationArgs := args } = primaryName f := by
    intro args
    dsimp only [f₂]
    rw [h₁]
    refine primaryName_congr rfl ?_
    dsimp only [specialized]
    split
    · exact .inr rfl
    · exact .inl rfl
  have hmixes : mixes a f.templateParams = (signs.concrete && signs.parameter) := rfl
  have hreplaces : replacesArgs a f.templateParams =
      ((signs.concrete && signs.parameter) && !found.isEmpty) := rfl
  rw [hmixes, hreplaces, setPrimary_eq, hprimary]
  dsimp only [f₂]
  rw [h₁]
  cases signs.concrete && signs.parameter with
  | false => simp
  | true =>
    cases found.isEmpty with
    | false => simp [specialized, found]
    | true => simp [specialized]

theorem exists_specialized :
    ∃ isPartial args primary, detectSpecialization a f = specialized f isPartial args primary := by
  by_cases h : f.isTemplate = true
  · exact ⟨_, _, _, detectSpecialization_eq a h⟩
  · exact ⟨_, _, _, if_pos (by simpa using h)⟩

theorem detectSpecialization_twice :
    detectSpecialization a (detectSpecialization a f) = detectSpecialization a f := by
  by_cases htemplate : f.isTemplate = true
  · have hg := detectSpecialization_eq a htemplate
    generalize detectSpecialization a f = g at hg ⊢
    have hgtemplate : g.isTemplate = true := by rw [hg]; exact htemplate
    have hparams : g.templateParams = f.templateParams := by rw [hg]; rfl
    have hargs : g.specializationArgs = if replacesArgs a f.templateParams then
        [join " " (specializationTokens false a.info.tokens)] else f.specializationArgs := by
      rw [hg]; rfl
    have hpartial : g.partialSpecialization =
        (f.partialSpecialization || hasFewArgs f || mixes a f.templateParams) := by rw [hg]; rfl
    have hprimary : g.primaryTemplate =
        if hasFewArgs f || replacesArgs a f.templateParams then primaryName f
        else f.primaryTemplate := by rw [hg]; rfl
    have hname : primaryName g = primaryName f := by
      refine primaryName_congr (by rw [hg]; rfl) ?_
      rw [hprimary]
      split
      · exact .inr rfl
      · exact .inl rfl
    rw [detectSpecialization_eq a hgtemplate, hparams, hname]
    cases hreplaces : replacesArgs a f.templateParams with
    | true =>
      -- the arguments are replaced by the same ones, so their number does not matter
      have hmixes : mixes a f.templateParams = true := (Bool.and_eq_true_iff.1 hreplaces).1
      rw [hreplaces] at hargs hprimary
      rw [Bool.or_true] at hprimary ⊢
      refine specialized_eq_self ?_ hargs hprimary
      rw [hpartial, hmixes, Bool.or_true, Bool.or_true]
    | false =>
      rw [hreplaces] at hargs hprimary
      have hfew : hasFewArgs g = hasFewArgs f := by
        unfold hasFewArgs
        rw [hparams, hargs, if_neg Bool.false_ne_true]
      rw [hfew]
      refine specialized_eq_self ?_ rfl ?_
      · rw [hpartial]
        cases hasFewArgs f <;> cases mixes a f.templateParams <;> simp
      · split_ifs with h
        · exact hprimary.trans (if_pos h)
        · rfl
  · have hsame : detectSpecialization a f = f := if_pos (by simpa using htemplate)
    rw [hsame, hsame]

theorem outline_detectSpecialization : outline (detectSpecialization a f) = outline f := by
  obtain ⟨isPartial, args, primary, h⟩ := exists_specialized a f
  rw [h]
  rfl

theorem noted_detectSpecialization : noted (detectSpecialization a f) = noted f := by
  obtain ⟨isPartial, args, primary, h⟩ := exists_specialized a f
  rw [h]
  rfl

/-! ### All looks -/

def lookOver (a : Ast) (s : KindSigns) (b : Bool) (tags techniques concepts : List Note)
    (f : Function) : Function :=
  detectSpecialization a <| define b <| concepts.foldl Note.write <| markSfinae <|
    techniques.foldl Note.write <| s.write <| tags.foldl Note.write f

theorem outline_lookOver :
    outline (lookOver a s b tags techniques concepts f) =
      outline (define b (s.write (tags.foldl Note.write f))) := by
  unfold lookOver
  rw [outline_detectSpecialization]
  refine outline_define_congr b ((outline_foldl_write _ concepts).trans ?_)
  exact (outline_markSfinae _).trans (outline_foldl_write _ techniques)

theorem isTemplate_lookOver :
    (lookOver a s b tags techniques concepts f).isTemplate = f.isTemplate := by
  have houtline := outline_lookOver a s b f tags techniques concepts
  rw [outline_define] at houtline
  have htags : (tags.foldl Note.write f).isTemplate = f.isTemplate :=
    congrArg (·.1) (outline_foldl_write f tags)
  exact (congrArg (·.1) houtline).trans htags

theorem lookOver_twice :
    lookOver a s b tags techniques concepts (lookOver a s b tags techniques concepts f) =
      lookOver a s b tags techniques concepts f := by
  let y := s.write (tags.foldl Note.write f)
  let z := markSfinae (techniques.foldl Note.write y)
  let w := concepts.foldl Note.write z
  let g := detectSpecialization a (define b w)
  have houtline : outline g = outline (define b y) :=
    outline_lookOver a s b f tags techniques concepts
  have hnoted : noted w = noted g := by rw [noted_detectSpecialization, noted_define]
  have hstays : ∀ {n : Note}, n.IsIn z → n.IsIn g := fun hn =>
    isIn_of_noted_eq hnoted (hn.foldl_write concepts)
  have htags : ∀ n ∈ tags, n.IsIn g := fun n hn =>
    hstays (isIn_markSfinae
      ((isIn_of_noted_eq rfl (isIn_foldl_write f tags n hn) : n.IsIn y).foldl_write techniques))
  have htechniques : ∀ n ∈ techniques, n.IsIn (s.write g) := fun n hn =>
    isIn_of_noted_eq rfl (hstays (isIn_markSfinae (isIn_foldl_write y techniques n hn)))
  have hconcepts : ∀ n ∈ concepts, n.IsIn (s.write g) := fun n hn =>
    isIn_of_noted_eq hnoted (isIn_foldl_write z concepts n hn)
  have hmarked : IsMarked (s.write g) :=
    isMarked_of_noted_eq hnoted ((isMarked_markSfinae _).foldl_write concepts)
  change lookOver a s b tags techniques concepts g = g
  unfold lookOver
  rw [foldl_write_of_isIn htags, foldl_write_of_isIn htechniques, hmarked.markSfinae_eq,
    foldl_write_of_isIn hconcepts, s.define_write_of_outline b houtline]
  exact detectSpecialization_twice a (define b w)

/-- A function template that is looked at twice is as it was after the first time. -/
theorem detectAll_twice (a : Ast) (f : Function) :
    (detectAll a f >>= detectAll a) = detectAll a f := by
  obtain ⟨techniques, hsfinae⟩ := exists_notes_detectSfinae a f.isTemplate
  obtain ⟨b, found, hconcepts⟩ := writes_detectConcepts a
  have hall : ∀ x : Function, x.isTemplate = f.isTemplate →
      detectAll a x = found.map fun concepts =>
        lookOver a (kindSigns a) b (tagNotes a) techniques concepts x := by
    intro x hx
    have hy : (detectMetafunction a x).isTemplate = f.isTemplate := by
      rw [detectMetafunction_eq, ← hx]
      exact congrArg (·.1) (outline_foldl_write x (tagNotes a))
    unfold detectAll
    rw [hsfinae _ hy, hconcepts, detectMetafunction_eq]
    cases found <;> rfl
  rw [hall f rfl]
  cases found with
  | error e => rfl
  | ok concepts =>
    have htwice := lookOver_twice a (kindSigns a) b f (tagNotes a) techniques concepts
    refine (hall _ ?_).trans (congrArg Except.ok htwice)
    exact isTemplate_lookOver a _ b f _ techniques concepts

end CodeAtlas.Extraction

import CodeAtlas.Proofs.Extraction.Changes

/-!
# The looks at templates and classes

Three looks follow the walk over definitions. Each goes through the nodes of the
file (`Ast.nodesIn`) from left to right and does one thing at each of them, so
what a step keeps, the look keeps. `Functions.Become` says that all entries
became others by changes, under the same names in the same order. Every look
does no more than that, and `become_extract` is what an extraction is: the walk
over definitions, changes, and one more entry at most.

The core of an entry is what the walk over definitions writes: the name, the
place, the signature and the two lists of calls. The looks keep the core of
every entry, and their order.
-/

namespace CodeAtlas

open List

namespace Ast

mutual

/-- The trees below a top, itself included, without what stands in another file. -/
def nodesIn (file : String) : Ast → List Ast
  | .node info children =>
    if info.isElsewhere file then [] else .node info children :: nodesInAll file children

def nodesInAll (file : String) : List Ast → List Ast
  | [] => []
  | a :: rest => nodesIn file a ++ nodesInAll file rest

end

end Ast

namespace Extraction

def firstLook (fs : Functions) (a : Ast) : Functions :=
  noteSfinae a (noteOperator a.info
    (if a.kind.isTemplate then a.children.foldl (noteNested a.info.name) fs else fs))

def classLook (s : ClassFindings) (a : Ast) : Except Fault ClassFindings :=
  if a.kind.isClass || a.kind == .classTemplate then do
    let fs ← a.children.foldlM (noteMethod a.info.name (baseClasses a.children)) s.functions
    return ⟨fs, Dict.set s.bases a.info.name (baseClasses a.children)⟩
  else .ok s

def secondLook (fs : Functions) (a : Ast) : Except Fault Functions :=
  if a.kind == .functionTemplate && !a.info.name.isEmpty then
    adjustM fs a.info.name (completeTemplate a)
  else .ok fs

mutual

theorem templateInfo_eq_foldl (file : String) : ∀ (a : Ast) (fs : Functions),
    templateInfo file a fs = (a.nodesIn file).foldl firstLook fs
  | .node info children, fs => by
    rw [templateInfo, Ast.nodesIn]
    split
    · rfl
    · rw [foldl_cons, ← templateInfoAll_eq_foldl file children]
      rfl

theorem templateInfoAll_eq_foldl (file : String) : ∀ (l : List Ast) (fs : Functions),
    templateInfoAll file l fs = (Ast.nodesInAll file l).foldl firstLook fs
  | [], fs => rfl
  | a :: rest, fs => by
    rw [templateInfoAll, Ast.nodesInAll, foldl_append, ← templateInfo_eq_foldl file a,
      templateInfoAll_eq_foldl file rest]

end

mutual

theorem visitClasses_eq_foldlM (file : String) : ∀ (a : Ast) (s : ClassFindings),
    visitClasses file a s = (a.nodesIn file).foldlM classLook s
  | .node info children, s => by
    have hrest := funext fun s' => visitClassesAll_eq_foldlM file children s'
    rw [visitClasses, Ast.nodesIn]
    split
    · rfl
    · rw [foldlM_cons, ← hrest]
      change _ = (if info.kind.isClass || info.kind == .classTemplate then _ else _) >>= _
      split
      · rw [bind_assoc]
        rfl
      · rfl

theorem visitClassesAll_eq_foldlM (file : String) : ∀ (l : List Ast) (s : ClassFindings),
    visitClassesAll file l s = (Ast.nodesInAll file l).foldlM classLook s
  | [], s => rfl
  | a :: rest, s => by
    have hrest := funext fun s' => visitClassesAll_eq_foldlM file rest s'
    rw [visitClassesAll, Ast.nodesInAll, foldlM_append, ← visitClasses_eq_foldlM file a, ← hrest]

end

mutual

theorem completeTemplates_eq_foldlM (file : String) : ∀ (a : Ast) (fs : Functions),
    completeTemplates file a fs = (a.nodesIn file).foldlM secondLook fs
  | .node info children, fs => by
    have hrest := funext fun fs' => completeTemplatesAll_eq_foldlM file children fs'
    rw [completeTemplates, Ast.nodesIn]
    split
    · rfl
    · rw [foldlM_cons, ← hrest]
      change _ = (if info.kind == .functionTemplate && !info.name.isEmpty then _ else _) >>= _
      split <;> rfl

theorem completeTemplatesAll_eq_foldlM (file : String) : ∀ (l : List Ast) (fs : Functions),
    completeTemplatesAll file l fs = (Ast.nodesInAll file l).foldlM secondLook fs
  | [], fs => rfl
  | a :: rest, fs => by
    have hrest := funext fun fs' => completeTemplatesAll_eq_foldlM file rest fs'
    rw [completeTemplatesAll, Ast.nodesInAll, foldlM_append,
      ← completeTemplates_eq_foldlM file a, ← hrest]

end

end Extraction

def Functions.Become (fs fs' : Functions) : Prop := Dict.Related Function.Becomes fs fs'

namespace Functions

theorem Become.refl (fs : Functions) : Become fs fs := Dict.related_refl (fun _ => .refl) fs

theorem Become.trans {fs₁ fs₂ fs₃ : Functions} (h : Become fs₁ fs₂) (h' : Become fs₂ fs₃) :
    Become fs₁ fs₃ :=
  Dict.Related.trans (R := Function.Becomes) (S := Function.Becomes)
    (fun _ _ _ => Relation.ReflTransGen.trans) h h'

theorem become_map {change : String × Function → String × Function} {fs : Functions}
    (h : ∀ e ∈ fs, (change e).1 = e.1 ∧ e.2.Becomes (change e).2) :
    Become fs (map change fs) :=
  forall₂_map_right_iff.2 (forall₂_same.2 fun e he => ⟨(h e he).1.symm, (h e he).2⟩)

theorem become_adjust {fs : Functions} {key : String} {change : Function → Function}
    (h : ∀ f, (key, f) ∈ fs → f.Becomes (change f)) : Become fs (Dict.adjust fs key change) := by
  refine become_map ?_
  rintro ⟨k, f⟩ he
  by_cases hk : k = key
  · subst hk
    simp only [beq_self_eq_true, if_true]
    exact ⟨trivial, h f he⟩
  · simp only [beq_iff_eq, hk, if_false]
    exact ⟨trivial, .refl⟩

theorem become_set {fs : Functions} {key : String} {f g : Function} (hf : fs.get? key = some f)
    (h : f.Becomes g) : Become fs (Dict.set fs key g) := by
  induction fs with
  | nil => cases hf
  | cons e rest ih =>
    obtain ⟨k, v⟩ := e
    rw [Dict.get?_cons] at hf
    rw [Dict.set]
    by_cases hk : k = key
    · subst hk
      simp only [beq_self_eq_true, if_true] at hf ⊢
      cases hf
      exact .cons ⟨rfl, h⟩ (Become.refl rest)
    · have hk' : ¬ key = k := fun h => hk h.symm
      simp only [beq_iff_eq, hk, hk', if_false] at hf ⊢
      exact .cons ⟨rfl, .refl⟩ (ih hf)

/-- What every change keeps holds of all entries at the end, if it held of them at the start. -/
theorem Become.all {P : String → Function → Prop} {fs fs' : Functions} (h : Become fs fs')
    (hP : ∀ name f g, Function.Change f g → P name f → P name g) (hfs : Dict.All P fs) :
    Dict.All P fs' := by
  induction h with
  | nil => exact hfs
  | cons hentry _ ih =>
    intro e' he'
    rcases mem_cons.1 he' with rfl | he'
    · rw [← hentry.1]
      exact hentry.2.keeps (hP _) (hfs _ mem_cons_self)
    · exact ih (fun e he => hfs e (mem_cons_of_mem _ he)) e' he'

end Functions

namespace Extraction

open CodeAtlas.Function CodeAtlas.Functions

theorem become_adjustM {fs : Functions} {key : String} {change : Function → Except Fault Function}
    (h : ∀ f, Ensures f.Becomes (change f)) : Ensures (Become fs) (adjustM fs key change) := by
  unfold adjustM
  split
  · next f hf =>
      refine ensures_bind fun g hg => ensures_ok ?_
      exact become_set hf (h f g hg)
  · exact ensures_ok (Become.refl fs)

/-! The first look at templates. -/

theorem become_noteNested (template : String) (fs : Functions) (c : Ast) :
    Become fs (noteNested template fs c) := by
  unfold noteNested
  extract_lets name fs₁
  split
  · exact Become.refl fs
  · have h₁ : Become fs fs₁ := become_adjust fun f _ => (Change.specialization f name).becomes
    refine h₁.trans (become_adjust fun f _ => ?_)
    have hnested : f.Becomes
        ({ f with isTemplate := true, templateParams := typeParams c }.addSpecialization
          template) :=
      (Change.details f ..).becomes.tail (.specialization _ template)
    dsimp only
    split
    · exact hnested.tail (.details ..)
    · exact hnested

theorem become_noteOperator (info : NodeInfo) (fs : Functions) :
    Become fs (noteOperator info fs) := by
  unfold noteOperator
  split
  · exact become_adjust fun f _ => (Change.operator f _).becomes
  · exact Become.refl fs

theorem become_noteSfinae (a : Ast) (fs : Functions) : Become fs (noteSfinae a fs) := by
  unfold noteSfinae
  split
  · exact become_adjust fun f _ => (Change.sfinae f).becomes
  · exact Become.refl fs

theorem become_templateInfo (file : String) (a : Ast) (fs : Functions) :
    Become fs (templateInfo file a fs) := by
  rw [templateInfo_eq_foldl]
  refine foldlRecOn _ firstLook (Become.refl fs) fun fs₁ h₁ a _ => h₁.trans ?_
  refine .trans ?_ ((become_noteOperator a.info _).trans (become_noteSfinae a _))
  split
  · exact foldlRecOn a.children _ (Become.refl fs₁) fun fs₂ h₂ c _ =>
      h₂.trans (become_noteNested a.info.name fs₂ c)
  · exact Become.refl fs₁

/-! The look at classes. -/

def MarkedVirtual (name : String) (fs : Functions) : Prop :=
  Dict.All (fun k f => k = name → f.isVirtual = true ∧ f.isMember = true) fs

theorem become_noteOverride {name : String} {fs : Functions} (hfs : MarkedVirtual name fs)
    (method base : String) : Become fs (noteOverride name method fs base) := by
  unfold noteOverride
  extract_lets overridden
  split
  · split
    · refine become_adjust fun f hf => ?_
      obtain ⟨hvirtual, hmember⟩ := hfs (name, f) hf rfl
      exact (Change.override hvirtual hmember overridden).becomes.tail (.inherit _ [base])
    · exact Become.refl fs
  · exact Become.refl fs

theorem MarkedVirtual.become {name : String} {fs fs' : Functions} (hfs : MarkedVirtual name fs)
    (h : Become fs fs') : MarkedVirtual name fs' := by
  refine h.all ?_ hfs
  intro k f g hchange hf hk
  obtain ⟨hvirtual, hmember⟩ := hf hk
  cases hchange with
  | technique t =>
    unfold addSfinaeTechnique
    split <;> exact ⟨hvirtual, hmember⟩
  | member => exact ⟨hvirtual, rfl⟩
  | virtual => exact ⟨rfl, hmember⟩
  | _ => exact ⟨hvirtual, hmember⟩

theorem become_noteMethod (className : String) (bases : List String) (fs : Functions) (a : Ast) :
    Ensures (Become fs) (noteMethod className bases fs a) := by
  unfold noteMethod
  extract_lets info name fs₁ fs₂ finish
  have h₁ : Become fs fs₁ := become_adjust fun f _ => (Change.member f className).becomes
  have h₂ : Become fs fs₂ := by
    dsimp only [fs₂]
    split
    · have hvirtual : Become fs₁ (Dict.adjust fs₁ name fun f => { f with isVirtual := true }) :=
        become_adjust fun f _ => (Change.virtual f).becomes
      have hmember : Dict.All (fun k f => k = name → f.isMember = true) fs₁ :=
        Dict.All.adjust_at (P := fun _ => True) (fun _ _ _ => trivial) fun _ _ => rfl
      have hmarked : MarkedVirtual name
          (Dict.adjust fs₁ name fun f => { f with isVirtual := true }) :=
        hmember.adjust_at fun _ h => ⟨rfl, h⟩
      refine h₁.trans (hvirtual.trans ?_)
      refine (foldlRecOn (motive := fun fs' => Become _ fs' ∧ MarkedVirtual name fs')
        bases (noteOverride name info.name) ⟨Become.refl _, hmarked⟩ ?_).1
      rintro fs' ⟨hfs', hmarked'⟩ base _
      have hbase := become_noteOverride hmarked' info.name base
      exact ⟨hfs'.trans hbase, hmarked'.become hbase⟩
    · exact h₁
  have hfinish : ∀ fs', Become fs fs' → Ensures (Become fs) (finish fs') := by
    intro fs' h'
    exact ensures_ok (h'.trans (become_adjust fun f _ => (Change.details f ..).becomes))
  split
  · exact ensures_ok (Become.refl fs)
  · split
    · exact ensures_ok (Become.refl fs)
    · split
      · split
        · exact hfinish _ (h₂.trans (become_adjust fun f _ => (Change.details f ..).becomes))
        · exact ensures_error _ _
      · exact hfinish fs₂ h₂

theorem become_addInherited (bases : Dict (List String)) (fs : Functions) :
    Become fs (addInherited bases fs) := by
  refine become_map ?_
  rintro ⟨k, f⟩ _
  dsimp only
  split
  · exact ⟨rfl, (Change.inherit f _).becomes⟩
  · exact ⟨rfl, .refl⟩

theorem become_classLook (s : ClassFindings) (a : Ast) :
    Ensures (fun s' => Become s.functions s'.functions) (classLook s a) := by
  unfold classLook
  split
  · refine ensures_bind fun fs hfs => ensures_ok ?_
    exact foldlM_invariant (Become s.functions) a.children
      (fun fs₁ m fs₂ _ h₁ h₂ => h₁.trans (become_noteMethod _ _ fs₁ m fs₂ h₂))
      (Become.refl s.functions) hfs
  · exact ensures_ok (Become.refl s.functions)

theorem become_classHierarchy (file : String) (a : Ast) (fs : Functions) :
    Ensures (Become fs) (classHierarchy file a fs) := by
  unfold classHierarchy
  refine ensures_bind fun s hs => ensures_ok ?_
  refine .trans ?_ (become_addInherited s.bases s.functions)
  rw [visitClasses_eq_foldlM] at hs
  exact foldlM_invariant (fun s => Become fs s.functions) (a.nodesIn file)
    (fun s₁ a s₂ _ h₁ h₂ => h₁.trans (become_classLook s₁ a s₂ h₂)) (Become.refl fs) hs

/-! The second look at templates. -/

theorem become_secondLook (fs : Functions) (a : Ast) : Ensures (Become fs) (secondLook fs a) := by
  unfold secondLook
  split
  · exact become_adjustM (becomes_completeTemplate a)
  · exact ensures_ok (Become.refl fs)

theorem become_completeTemplates (file : String) (a : Ast) (fs : Functions) :
    Ensures (Become fs) (completeTemplates file a fs) := by
  intro fs' hfs'
  rw [completeTemplates_eq_foldlM] at hfs'
  exact foldlM_invariant (Become fs) (a.nodesIn file)
    (fun fs₁ a fs₂ _ h₁ h₂ => h₁.trans (become_secondLook fs₁ a fs₂ h₂)) (Become.refl fs) hfs'

theorem become_addSameType (fs : Functions) :
    Become fs (addSameType fs) ∨
      fs.has "is_same<T, T>" = false ∧ ∃ same, fs.get? "is_same" = some same ∧
        Become (Dict.set fs "is_same<T, T>"
          (sameTypeSpecialization same.filePath same.lineNumber)) (addSameType fs) := by
  unfold addSameType
  split
  · next same hsame =>
      split_ifs with hnew
      · have habsent : fs.has "is_same<T, T>" = false := by
          rw [Bool.and_eq_true, Bool.not_eq_true'] at hnew
          exact hnew.2
        refine .inr ⟨habsent, same, hsame, ?_⟩
        exact become_adjust fun f _ => (Change.specialization f _).becomes
      · exact .inl (Become.refl fs)
  · exact .inl (Become.refl fs)

/-- The extraction is the walk over definitions and changes, with one more entry in between if the
comparison of types is known. -/
theorem become_extract {options : Options} {file : String} {a : Ast} {fs : Functions}
    (h : extract options file a = .ok fs) :
    ∃ walked, visit file a [] = .ok walked ∧
      (Become walked fs ∨ ∃ seen same, Become walked seen ∧ seen.has "is_same<T, T>" = false ∧
        seen.get? "is_same" = some same ∧
        Become (Dict.set seen "is_same<T, T>"
          (sameTypeSpecialization same.filePath same.lineNumber)) fs) := by
  unfold extract at h
  obtain ⟨walked, hwalked, h⟩ := exists_of_bind_eq_ok h
  refine ⟨walked, hwalked, ?_⟩
  extract_lets fs₁ finish at h
  have h₁ : Become walked fs₁ := by
    dsimp only [fs₁]
    split
    · exact become_templateInfo file a walked
    · exact Become.refl walked
  obtain ⟨fs₂, h₂, h⟩ : ∃ fs₂, Become walked fs₂ ∧ finish fs₂ = .ok fs := by
    split at h
    · obtain ⟨fs₂, hfs₂, h⟩ := exists_of_bind_eq_ok h
      exact ⟨fs₂, h₁.trans (become_classHierarchy file a fs₁ fs₂ hfs₂), h⟩
    · exact ⟨fs₁, h₁, h⟩
  dsimp only [finish] at h
  split at h
  · have hfs := become_completeTemplates file a (addSameType fs₂) fs h
    rcases become_addSameType fs₂ with hsame | ⟨hnew, same, hget, hset⟩
    · exact .inl (h₂.trans (hsame.trans hfs))
    · exact .inr ⟨fs₂, same, h₂, hnew, hget, hset.trans hfs⟩
  · cases h
    exact .inl h₂

end Extraction

/-! ### What the looks leave alone -/

open Dict

/-- If a computation succeeds, its result has a certain view. -/
def Gives {α β : Type} (view : α → β) (v : β) (x : Except Fault α) : Prop :=
  ∀ a, x = .ok a → view a = v

theorem gives_ok {α β : Type} {view : α → β} {v : β} {a : α} (h : view a = v) :
    Gives view v (.ok a) := by
  intro a' ha'
  cases ha'
  exact h

/-- The part of an entry that only the walk over definitions writes. -/
structure Function.Core where
  name : String
  signature : String
  filePath : String
  lineNumber : Int
  calls : List String
  calledBy : List String
deriving Repr, DecidableEq

namespace Function

def core (f : Function) : Core :=
  ⟨f.name, f.signature, f.filePath, f.lineNumber, f.calls, f.calledBy⟩

theorem Change.core_eq {f g : Function} (h : Change f g) : g.core = f.core := by
  cases h with
  | technique t =>
    unfold addSfinaeTechnique
    split <;> rfl
  | _ => rfl

theorem Becomes.core_eq {f g : Function} (h : f.Becomes g) : g.core = f.core :=
  h.keeps (P := fun g => g.core = f.core) (fun _ _ hchange hf => hchange.core_eq.trans hf) rfl

end Function

namespace Extraction

open CodeAtlas.Function CodeAtlas.Functions

theorem core_knownTemplate (a : Ast) (f : Function) : (knownTemplate a f).core = f.core :=
  (becomes_knownTemplate a f).core_eq

theorem gives_core_detectAll (a : Ast) (f : Function) : Gives core f.core (detectAll a f) :=
  fun g hg => (becomes_detectAll a f g hg).core_eq

def cores (fs : Functions) : Dict Core := Dict.mapValues core fs

theorem get?_cores (fs : Functions) (key : String) : (cores fs).get? key = (fs.get? key).map core :=
  get?_mapValues core fs key

theorem cores_adjust (fs : Functions) (key : String) {change : Function → Function}
    (hchange : ∀ f, (change f).core = f.core) : cores (Dict.adjust fs key change) = cores fs := by
  rw [cores, Dict.mapValues_adjust core fs key change id hchange, adjust_id, cores]

theorem gives_cores_adjustM (fs : Functions) (key : String)
    {change : Function → Except Fault Function} (hchange : ∀ f, Gives core (core f) (change f)) :
    Gives cores (cores fs) (adjustM fs key change) := by
  unfold adjustM
  split
  · next f hf =>
      refine ensures_bind (P := fun fs' => cores fs' = cores fs) fun g hg => gives_ok ?_
      rw [cores, mapValues_set]
      exact set_eq_self (by rw [get?_mapValues, hf, Option.map_some, hchange f g hg])
  · exact gives_ok rfl

theorem cores_eq_of_become {fs fs' : Functions} (h : Become fs fs') : cores fs' = cores fs := by
  unfold Become at h
  induction h with
  | nil => rfl
  | cons hentry _ ih =>
    rw [cores, Dict.mapValues, map_cons, ← hentry.1, hentry.2.core_eq]
    exact congrArg _ ih

/-- Whatever is looked at, the cores are those of the walk over definitions, but for one entry
without calls and callers that may come at the end. -/
theorem cores_extract {options : Options} {file : String} {a : Ast} {fs : Functions}
    (h : extract options file a = .ok fs) :
    ∃ walked, visit file a [] = .ok walked ∧
      (cores fs = cores walked ∨
        walked.has "is_same<T, T>" = false ∧ ∃ same, walked.get? "is_same" = some same ∧
          cores fs = Dict.set (cores walked) "is_same<T, T>"
            (sameTypeSpecialization same.filePath same.lineNumber).core) := by
  obtain ⟨walked, hwalked, hfs⟩ := become_extract h
  refine ⟨walked, hwalked, ?_⟩
  rcases hfs with hfs | ⟨seen, same, hseen, hnew, hsame, hfs⟩
  · exact .inl (cores_eq_of_become hfs)
  · have hcores := cores_eq_of_become hseen
    have hnew' : walked.has "is_same<T, T>" = false := by
      rw [← has_mapValues core] at hnew ⊢
      exact (congrArg (Dict.has · "is_same<T, T>") hcores).symm.trans hnew
    obtain ⟨original, horiginal, hcore⟩ :
        ∃ original, walked.get? "is_same" = some original ∧ original.core = same.core := by
      rw [← Option.map_eq_some_iff, ← get?_cores, ← hcores, get?_cores, hsame]
      rfl
    have hfile : original.filePath = same.filePath := congrArg Core.filePath hcore
    have hline : original.lineNumber = same.lineNumber := congrArg Core.lineNumber hcore
    refine .inr ⟨hnew', original, horiginal, ?_⟩
    rw [cores_eq_of_become hfs, cores, Dict.mapValues_set, hfile, hline]
    exact congrArg (Dict.set · _ _) hcores

end Extraction

end CodeAtlas

import CodeAtlas.Proofs.Extraction.Coherence
import CodeAtlas.Proofs.Pattern

/-!
# Extractions that fail

An extraction can fail on a tree, but it never ends the program: the faults come
from the looks at concepts and at constructors, and each of them is one that the
analysis of a file mends (`Mends`).

There are two causes. The look for concepts writes the last token of a type
parameter into a pattern, and a token such as `*` leaves no pattern to search
with (`isSpoilt`). The look at classes asks the children of a constructor for
something that no node has, so it fails at every constructor that has children
and an entry. Neither depends on what the entries say, only on which names have
one, and this is fixed by the walk (`Entered`). `Stumbles` collects the places
where the one or the other happens, and `mends_extract` says that there are no
more.
-/

namespace CodeAtlas.Extraction

open Visit Functions Dict

variable {change : Function → Except Fault Function} (className : String) (s : ClassFindings)
  (file : String) (a : Ast) (f : Function) (bases : List String) (fs : Functions)

/-! ### Spoilt templates -/

/-- The name spoils the pattern for a constraint on it: the pattern cannot be read, or it has
several groups and is found. -/
def spoils (text name : String) : Bool :=
  match Pattern.parse ("requires\\s+[A-Za-z0-9_]+<\\s*" ++ name ++ "\\s*>") with
  | .error _ => true
  | .ok p => p.foundIn text && 2 ≤ p.groupCount

/-- Nothing but a type is said of a parameter in front of its name. -/
def saysType : List String → Bool
  | first :: _ :: _ => ["typename", "class"].contains first
  | _ => true

def isSpoiling (text : String) (c : Ast) : Bool :=
  c.kind == .typeParameter && (saysType c.info.tokens &&
    ((Text.occursIn "requires" text && !c.info.tokens.isEmpty) &&
      spoils text (c.info.tokens.getLastD "")))

def isSpoilt (t : Ast) : Bool :=
  t.children.any (isSpoiling (Text.join " " (t.children.flatMap (·.info.tokens))))

theorem mends_stretches {p : Pattern} {text : String} (hfound : p.foundIn text = true) :
    Mends (stretches p text) (¬ 2 ≤ p.groupCount) := by
  have hsome : (p.findAll text).isEmpty = false := by rw [Pattern.isEmpty_findAll, hfound]; rfl
  unfold stretches
  dsimp only
  rw [hsome]
  match p.groupCount with
  | 0 => exact .ok (by omega)
  | 1 => exact .ok (by omega)
  | n + 2 => exact .error (fun _ => nofun) (by omega)

/-- The look for a clause on a parameter succeeds if the name of the parameter spoils nothing. -/
theorem mends_noteParameter (text : String) (c : Ast) :
    Mends (noteParameter text f c) (isSpoiling text c = false) := by
  unfold noteParameter isSpoiling
  by_cases hkind : c.kind = .typeParameter
  · rw [if_neg (by simp [hkind]), beq_iff_eq.2 hkind, Bool.true_and]
    extract_lets done name written clause shown
    -- both ways of going on end in the look for a clause
    have hclause : Mends (clause ())
        (((Text.occursIn "requires" text && !c.info.tokens.isEmpty) && spoils text name) =
          false) := by
      dsimp only [clause]
      split_ifs with hlooks
      · rw [hlooks, Bool.true_and, spoils]
        cases Pattern.parse written with
        | error e => exact .error (fun _ => nofun) (by simp)
        | ok p =>
          dsimp only
          split_ifs with hfound
          · refine ((mends_stretches hfound).bind_left fun found => succeeds_ok _).congr ?_
            rw [hfound]
            simp
          · exact .ok (by simp [hfound])
      · rw [Bool.eq_false_iff.2 hlooks]
        exact .ok rfl
    split
    · next first second rest htokens =>
        rw [htokens, saysType, ← htokens]
        cases ["typename", "class"].contains first with
        | true => exact hclause
        | false =>
          rw [Bool.not_false, if_pos rfl]
          split <;> exact .ok rfl
    · next htokens =>
        have htype : saysType c.info.tokens = true := by
          unfold saysType
          split
          · next first second rest h => exact absurd h (htokens first second rest)
          · rfl
        rw [htype]
        exact hclause
  · rw [if_pos (by simpa using hkind)]
    exact .ok (by simp [hkind])

theorem mends_detectAll : Mends (detectAll a f) (isSpoilt a = false) := by
  unfold detectAll detectConcepts isSpoilt
  refine .bind_left ?_ fun f => succeeds_ok _
  extract_lets tokens text f₁ f₂ definition
  refine .bind_left ?_ fun f => ?_
  · refine (Mends.foldlM (fun _ => True) (fun _ _ _ _ _ _ => trivial)
      (fun f _ c _ => mends_noteParameter f text c) trivial).congr ?_
    simp only [List.any_eq_false, Bool.not_eq_true]
    rfl
  · split
    · exact succeeds_ok _
    · split <;> exact succeeds_ok _

/-! ### The walk over definitions -/

theorem mends_adjustM {fs : Functions} {name : String} {p : Prop} (h : ∀ f, Mends (change f) p) :
    Mends (adjustM fs name change) (fs.has name = true → p) := by
  unfold adjustM Dict.has
  cases fs.get? name with
  | none => exact .ok nofun
  | some f => exact ((h f).bind_left fun f' => succeeds_ok _).congr (by simp)

theorem Definition.succeeds_run {d : Definition} (hfinish : d.finish = .ok) (fs : Functions) :
    Succeeds (d.run fs) := by
  unfold Definition.run
  rw [hfinish]
  split
  · exact succeeds_ok fs
  · rw [adjustM_ok]
    exact succeeds_ok _

theorem mends_ofTemplate : Mends ((Definition.ofTemplate a).run fs) (isSpoilt a = false) := by
  have hentered : ((Definition.ofTemplate a).enter fs).has (Definition.ofTemplate a).name = true :=
    ((Definition.ofTemplate a).has_enter fs _).2 (.inl rfl)
  refine (mends_adjustM (mends_detectAll a)).congr ?_
  rw [(written_findCalls hentered _).has_eq]
  exact forall_prop_of_true hentered

theorem Visit.Usual.mends {v : Visit} (hv : v.Usual) (fs : Functions) :
    Mends (v.run fs) (∀ t, v = .definition (.ofTemplate t) → isSpoilt t = false) := by
  -- were such a definition one of a template, the template would not be spoilt
  have hplain : ∀ d : Definition, d.finish = .ok → Mends (d.run fs)
      (∀ t, Visit.definition d = .definition (.ofTemplate t) → isSpoilt t = false) := by
    intro d hfinish
    refine .of_succeeds (d.succeeds_run hfinish fs) fun t ht => ?_
    cases ht
    have hdetect : detectAll t = .ok := hfinish
    rw [← (mends_detectAll t (newTemplate t)).succeeds_iff, hdetect]
    exact succeeds_ok _
  cases hv with
  | template a =>
    refine (mends_ofTemplate a fs).congr ⟨fun h t ht => ?_, fun h => h a rfl⟩
    have ht : a = t := congrArg Definition.node (Visit.definition.inj ht)
    exact ht ▸ h
  | templateClass a => exact .ok nofun
  | _ => exact hplain _ rfl

theorem mends_visit : Mends (visit file a fs)
    (∀ t, .definition (.ofTemplate t) ∈ visits file a → isSpoilt t = false) := by
  rw [visit_eq_runAll]
  refine (Mends.foldlM (fun _ => True) (fun _ _ _ _ _ _ => trivial)
    (fun fs _ v hv => (below_of_mem_visits file a hv).usual.mends fs) trivial).congr ?_
  constructor
  · intro h t ht
    exact h _ ht t rfl
  · rintro h v hv t rfl
    exact h t hv

/-! ### The look at classes -/

theorem has_eq_of_become {fs fs' : Functions} (h : Become fs fs') (name : String) :
    fs'.has name = fs.has name := by
  rw [has_eq_cores, cores_eq_of_become h, ← has_eq_cores]

def IsFilledConstructor (m : Ast) : Prop := m.kind = .constructor ∧ m.children ≠ []

theorem mends_noteMethod (m : Ast) : Mends (noteMethod className bases fs m)
    (IsFilledConstructor m → fs.has (qualify className m.info.name) = false) := by
  unfold noteMethod IsFilledConstructor
  extract_lets info name fs₁ fs₂ finish
  split
  · next hkind =>
      refine .ok fun hm => ?_
      have hconstructor : info.kind = .constructor := hm.1
      simp [hconstructor] at hkind
  · split
    · next hnew => exact .ok fun _ => by simpa using hnew
    · next hknown =>
        have hknown : fs.has name = true := by simpa using hknown
        split
        · next hconstructor =>
            cases hchildren : m.children with
            | nil => exact .ok fun hm => absurd rfl hm.2
            | cons c rest =>
              refine .error (fun _ => nofun) fun h => ?_
              rw [h ⟨beq_iff_eq.1 hconstructor, List.cons_ne_nil c rest⟩] at hknown
              cases hknown
        · next hconstructor => exact .ok fun hm => absurd (beq_iff_eq.2 hm.1) hconstructor

def IsClass (c : Ast) : Prop := (c.kind.isClass || c.kind == .classTemplate) = true

theorem mends_classLook (c : Ast) :
    Mends (classLook s c) (IsClass c → ∀ m ∈ c.children, IsFilledConstructor m →
      s.functions.has (qualify c.info.name m.info.name) = false) := by
  unfold classLook IsClass
  split_ifs with hclass
  · rw [forall_prop_of_true hclass]
    refine .bind_left ?_ fun fs => succeeds_ok _
    refine .foldlM (Become s.functions)
      (fun fs₁ m fs₂ _ h₁ h₂ => h₁.trans (become_noteMethod _ _ fs₁ m fs₂ h₂))
      (fun fs₁ h₁ m _ => ?_) (Become.refl s.functions)
    exact has_eq_of_become h₁ _ ▸ mends_noteMethod _ _ fs₁ m
  · exact .ok fun h => absurd h hclass

theorem mends_classHierarchy :
    Mends (classHierarchy file a fs) (∀ c ∈ a.nodesIn file, IsClass c → ∀ m ∈ c.children,
      IsFilledConstructor m → fs.has (qualify c.info.name m.info.name) = false) := by
  refine .bind_left ?_ fun s => succeeds_ok _
  rw [visitClasses_eq_foldlM]
  refine .foldlM (fun s => Become fs s.functions)
    (fun s₁ c s₂ _ h₁ h₂ => h₁.trans (become_classLook s₁ c s₂ h₂)) (fun s₁ h₁ c _ => ?_)
    (Become.refl fs)
  have hlook := mends_classLook s₁ c
  simp only [has_eq_of_become h₁] at hlook
  exact hlook

/-! ### The second look at templates -/

def IsNamedTemplate (t : Ast) : Prop := t.kind = .functionTemplate ∧ t.info.name ≠ ""

theorem mends_secondLook (t : Ast) : Mends (secondLook fs t)
    (IsNamedTemplate t → fs.has t.info.name = true → isSpoilt t = false) := by
  unfold secondLook IsNamedTemplate
  split_ifs with h
  · have hnamed : t.kind = .functionTemplate ∧ t.info.name ≠ "" := by simpa using h
    rw [forall_prop_of_true hnamed]
    exact mends_adjustM fun f => (mends_detectAll t _).bind_left fun f' => succeeds_ok _
  · exact .ok fun hnamed => absurd (by simpa using hnamed) h

theorem mends_completeTemplates :
    Mends (completeTemplates file a fs) (∀ t ∈ a.nodesIn file, IsNamedTemplate t →
      fs.has t.info.name = true → isSpoilt t = false) := by
  rw [completeTemplates_eq_foldlM]
  refine .foldlM (Become fs)
    (fun fs₁ t fs₂ _ h₁ h₂ => h₁.trans (become_secondLook fs₁ t fs₂ h₂)) (fun fs₁ h₁ t _ => ?_)
    (Become.refl fs)
  exact has_eq_of_become h₁ _ ▸ mends_secondLook fs₁ t

/-! ### The comparison of types -/

def templateMarks (fs : Functions) : Dict Bool := Dict.mapValues (·.isTemplate) fs

def KnowsComparison (fs : Functions) : Prop := (templateMarks fs).get? "is_same" = some true

theorem templateMarks_adjust {fs : Functions} {key : String} {change : Function → Function}
    {marks : Dict Bool} (hmarks : templateMarks fs = marks)
    (hchange : ∀ f, (change f).isTemplate = f.isTemplate) :
    templateMarks (Dict.adjust fs key change) = marks := by
  rw [templateMarks, Dict.mapValues_adjust _ fs key change id hchange, adjust_id]
  exact hmarks

theorem templateMarks_noteOverride (name method : String) (base : String) :
    templateMarks (noteOverride name method fs base) = templateMarks fs := by
  unfold noteOverride
  extract_lets overridden
  split
  · split
    · exact templateMarks_adjust rfl fun f => rfl
    · rfl
  · rfl

theorem templateMarks_noteMethod (m : Ast) :
    Gives templateMarks (templateMarks fs) (noteMethod className bases fs m) := by
  unfold noteMethod
  extract_lets info name fs₁ fs₂ finish
  have h₁ : templateMarks fs₁ = templateMarks fs := templateMarks_adjust rfl fun f => rfl
  have h₂ : templateMarks fs₂ = templateMarks fs := by
    dsimp only [fs₂]
    split
    · refine List.foldlRecOn (motive := fun fs' => templateMarks fs' = templateMarks fs) bases _
        (templateMarks_adjust h₁ fun f => rfl) fun fs' h' base _ => ?_
      exact (templateMarks_noteOverride fs' name info.name base).trans h'
    · exact h₁
  have hfinish : ∀ fs', templateMarks fs' = templateMarks fs →
      Gives templateMarks (templateMarks fs) (finish fs') := fun fs' h' =>
    gives_ok (templateMarks_adjust h' fun f => rfl)
  split
  · exact gives_ok rfl
  · split
    · exact gives_ok rfl
    · split
      · split
        · exact hfinish _ (templateMarks_adjust h₂ fun f => rfl)
        · exact ensures_error _ _
      · exact hfinish fs₂ h₂

theorem templateMarks_classHierarchy :
    Gives templateMarks (templateMarks fs) (classHierarchy file a fs) := by
  intro fs' hfs'
  obtain ⟨s, hs, hfs'⟩ := exists_of_bind_eq_ok hfs'
  cases hfs'
  have hclasses : templateMarks s.functions = templateMarks fs := by
    rw [visitClasses_eq_foldlM] at hs
    refine foldlM_invariant (fun s => templateMarks s.functions = templateMarks fs) _
      (fun s₁ c s₂ _ h₁ h₂ => ?_) rfl hs
    unfold classLook at h₂
    split at h₂
    · obtain ⟨fs₂, hfs₂, h₂⟩ := exists_of_bind_eq_ok h₂
      cases h₂
      exact foldlM_invariant (fun fs' => templateMarks fs' = templateMarks fs) c.children
        (fun fs₁ m fs₂ _ h₁ h₂ => (templateMarks_noteMethod _ _ fs₁ m fs₂ h₂).trans h₁) h₁ hfs₂
    · cases h₂
      exact h₁
  rw [← hclasses, templateMarks, templateMarks, Dict.mapValues, Dict.mapValues, addInherited,
    List.map_map]
  refine List.map_congr_left fun e _ => ?_
  dsimp only [Function.comp]
  split <;> rfl

theorem has_addSameType (name : String) :
    (addSameType fs).has name = true ↔
      fs.has name = true ∨ name = "is_same<T, T>" ∧ KnowsComparison fs := by
  unfold addSameType KnowsComparison templateMarks
  rw [get?_mapValues]
  cases fs.get? "is_same" with
  | none => simp
  | some f =>
    cases hknown : fs.has "is_same<T, T>" with
    | true =>
      have himp : name = "is_same<T, T>" ∧ some f.isTemplate = some true →
          fs.has name = true := fun h => h.1 ▸ hknown
      simpa using himp
    | false =>
      cases hmark : f.isTemplate with
      | false => simp [hmark]
      | true => simp [hmark, has_adjust, has_set, or_comm]

/-! ### The whole extraction -/

def Entered (file : String) (a : Ast) (name : String) : Prop :=
  ∃ v ∈ visits file a, v.Enters name

def ComparesTypes (file : String) (a : Ast) : Prop :=
  ∃ walked, visit file a [] = .ok walked ∧ KnowsComparison (templateInfo file a walked)

/-- What the extraction of a file fails at. -/
inductive Stumbles (options : Options) (file : String) (a : Ast) : Prop where
  /-- The walk comes to a spoilt function template. -/
  | walk {t : Ast} (hvisit : .definition (.ofTemplate t) ∈ visits file a)
      (hspoilt : isSpoilt t = true)
  /-- A constructor with something below its node has the name of an entry. -/
  | constructor {c m : Ast} (hoption : options.virtualMethods = true) (hc : c ∈ a.nodesIn file)
      (hclass : IsClass c) (hm : m ∈ c.children) (hfilled : IsFilledConstructor m)
      (hentry : Entered file a (qualify c.info.name m.info.name))
  /-- A spoilt function template has the name of an entry, wherever it stands. -/
  | template {t : Ast} (hoption : options.templates = true) (ht : t ∈ a.nodesIn file)
      (hnamed : IsNamedTemplate t)
      (hentry : Entered file a t.info.name ∨
        t.info.name = "is_same<T, T>" ∧ ComparesTypes file a)
      (hspoilt : isSpoilt t = true)

theorem has_visit_iff {file : String} {a : Ast} {walked : Functions}
    (h : visit file a [] = .ok walked) (name : String) :
    walked.has name = true ↔ Entered file a name := by
  rw [visit_eq_runAll] at h
  rw [has_runAll_iff _ h]
  exact or_iff_left Bool.false_ne_true

section

variable {options : Options} {file : String} {a : Ast} {walked fs : Functions}

theorem mends_classHierarchy_entered (hwalked : visit file a [] = .ok walked)
    (hfs : Become walked fs) :
    Mends (classHierarchy file a fs) (∀ c ∈ a.nodesIn file, IsClass c → ∀ m ∈ c.children,
      IsFilledConstructor m → ¬ Entered file a (qualify c.info.name m.info.name)) := by
  refine (mends_classHierarchy file a fs).congr ?_
  simp only [has_eq_of_become hfs, ← has_visit_iff hwalked, Bool.not_eq_true]

theorem mends_advancedTemplates_entered (hwalked : visit file a [] = .ok walked)
    (hfs : Become walked fs)
    (hmarks : templateMarks fs = templateMarks (templateInfo file a walked)) :
    Mends (advancedTemplates file a fs) (∀ t ∈ a.nodesIn file, IsNamedTemplate t →
      Entered file a t.info.name ∨ t.info.name = "is_same<T, T>" ∧ ComparesTypes file a →
      isSpoilt t = false) := by
  have hcompares : KnowsComparison fs ↔ ComparesTypes file a := by
    unfold KnowsComparison
    rw [hmarks]
    constructor
    · intro h
      exact ⟨walked, hwalked, h⟩
    · rintro ⟨walked', hwalked', h⟩
      rw [hwalked] at hwalked'
      cases hwalked'
      exact h
  refine (mends_completeTemplates file a _).congr ?_
  simp only [has_addSameType, has_eq_of_become hfs, has_visit_iff hwalked, hcompares]

theorem not_stumbles_iff : ¬ Stumbles options file a ↔
    (∀ t, .definition (.ofTemplate t) ∈ visits file a → isSpoilt t = false) ∧
    (options.virtualMethods = true → ∀ c ∈ a.nodesIn file, IsClass c → ∀ m ∈ c.children,
      IsFilledConstructor m → ¬ Entered file a (qualify c.info.name m.info.name)) ∧
    (options.templates = true → ∀ t ∈ a.nodesIn file, IsNamedTemplate t →
      Entered file a t.info.name ∨ t.info.name = "is_same<T, T>" ∧ ComparesTypes file a →
      isSpoilt t = false) := by
  constructor
  · intro h
    refine ⟨fun t ht => ?_, fun hoption c hc hclass m hm hfilled hentry => ?_,
      fun hoption t ht hnamed hentry => ?_⟩
    · exact Bool.eq_false_iff.2 fun hspoilt => h (.walk ht hspoilt)
    · exact h (.constructor hoption hc hclass hm hfilled hentry)
    · exact Bool.eq_false_iff.2 fun hspoilt => h (.template hoption ht hnamed hentry hspoilt)
  · rintro ⟨hwalk, hconstructor, htemplate⟩ h
    cases h with
    | walk hvisit hspoilt => exact Bool.eq_false_iff.1 (hwalk _ hvisit) hspoilt
    | constructor hoption hc hclass hm hfilled hentry =>
      exact hconstructor hoption _ hc hclass _ hm hfilled hentry
    | template hoption ht hnamed hentry hspoilt =>
      exact Bool.eq_false_iff.1 (htemplate hoption _ ht hnamed hentry) hspoilt

end

theorem mends_extract (options : Options) :
    Mends (extract options file a) (¬ Stumbles options file a) := by
  obtain ⟨templates, virtualMethods⟩ := options
  rw [not_stumbles_iff]
  refine (mends_visit file a []).bind fun walked hwalked => ?_
  have hinfo := become_templateInfo file a walked
  have hseen : ∀ fs, Become walked fs → Mends (classHierarchy file a fs) _ :=
    fun fs hfs => mends_classHierarchy_entered hwalked hfs
  cases templates <;> cases virtualMethods
  · exact .ok ⟨nofun, nofun⟩
  · exact ((hseen walked (Become.refl walked)).bind_left succeeds_ok).congr (by simp)
  · exact (mends_advancedTemplates_entered hwalked hinfo rfl).congr (by simp)
  · refine ((hseen _ hinfo).bind fun fs hfs => mends_advancedTemplates_entered hwalked
      (hinfo.trans (become_classHierarchy file a _ fs hfs))
      (templateMarks_classHierarchy file a _ fs hfs)).congr (by simp)

end CodeAtlas.Extraction

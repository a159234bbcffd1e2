import CodeAtlas.CrossReferences
import CodeAtlas.Proofs.CallGraph

/-!
# What references between files add to a graph

All passes over the functions do one of two things to an entry: they set marks
that have nothing to do with calls, or they note a call on both of its sides.
`Notes new fs fs'` says this of a whole run, where `new` relates each caller to
the functions that it was found to use. Runs compose (`Notes.trans`), and a loop
notes what its turns note (`notes_foldl`).

Every pass reads only the bodies, the dependent names and the lists of names
made at the start, and no pass changes these. So `Reference mode fs` can say
from the functions at the start which calls are found.
-/

namespace CodeAtlas

open List Text Dict

variable {fs fs' start : Functions} {metafunctions : List String} {f' : Function}
  (templates : List String) (f : Function)

/-- The lists of calls and callers are continued, and what the passes read is kept. -/
structure Function.Grows (f f' : Function) : Prop where
  calls : f.calls <+: f'.calls
  calledBy : f.calledBy <+: f'.calledBy
  body : f'.body = f.body
  dependentNames : f'.dependentNames = f.dependentNames

namespace Function

theorem Grows.refl : f.Grows f := ⟨prefix_rfl, prefix_rfl, rfl, rfl⟩

theorem Grows.trans {f f'' : Function} (h : f.Grows f') (h' : f'.Grows f'') : f.Grows f'' where
  calls := h.calls.trans h'.calls
  calledBy := h.calledBy.trans h'.calledBy
  body := h'.body.trans h.body
  dependentNames := h'.dependentNames.trans h.dependentNames

theorem grows_addCall (name : String) : f.Grows (f.addCall name) :=
  ⟨prefix_addNew _ _, prefix_rfl, rfl, rfl⟩

theorem grows_addCaller (name : String) : f.Grows (f.addCaller name) :=
  ⟨prefix_rfl, prefix_addNew _ _, rfl, rfl⟩

/-- Only marks that have nothing to do with calls are set. -/
structure Marks (f f' : Function) : Prop where
  calls : f'.calls = f.calls
  calledBy : f'.calledBy = f.calledBy
  body : f'.body = f.body
  dependentNames : f'.dependentNames = f.dependentNames

theorem Marks.grows {f : Function} (h : f.Marks f') : f.Grows f' :=
  ⟨h.calls ▸ prefix_rfl, h.calledBy ▸ prefix_rfl, h.body, h.dependentNames⟩

end Function

namespace Functions

def Grow (fs fs' : Functions) : Prop := Dict.Related Function.Grows fs fs'

theorem Grow.refl (fs : Functions) : fs.Grow fs := related_refl Function.Grows.refl fs

theorem Grow.trans {fs'' : Functions} (h : fs.Grow fs') (h' : fs'.Grow fs'') : fs.Grow fs'' :=
  Dict.Related.trans (R := Function.Grows) (S := Function.Grows)
    (fun _ _ _ hf hf' => hf.trans hf') h h'

theorem Grow.has_eq (h : fs.Grow fs') (name : String) : fs'.has name = fs.has name :=
  has_eq_of_keys_eq (Dict.Related.keys_eq h) name

theorem Grow.get?_of_get? (h : fs.Grow fs') {name : String} (hf' : fs'.get? name = some f') :
    ∃ f, fs.get? name = some f ∧ f.Grows f' := by
  have hrel := Dict.Related.get? h name
  rw [hf'] at hrel
  generalize hf : fs.get? name = found at hrel
  cases hrel with
  | some hgrows => exact ⟨_, rfl, hgrows⟩

/-- The entries grow, and the calls that are new are noted on both sides. -/
structure Notes (new : String → String → Prop) (fs fs' : Functions) : Prop where
  grow : fs.Grow fs'
  calls_iff : ∀ f c, fs'.Calls f c ↔ fs.Calls f c ∨ new f c
  calledBy_iff : ∀ c f, fs'.CalledBy c f ↔ fs.CalledBy c f ∨ new f c

section

variable {new new' : String → String → Prop} {fs'' : Functions}

theorem notes_self (fs : Functions) : Notes (fun _ _ => False) fs fs where
  grow := Grow.refl fs
  calls_iff f c := by simp
  calledBy_iff c f := by simp

theorem Notes.trans (h : Notes new fs fs') (h' : Notes new' fs' fs'') :
    Notes (fun f c => new f c ∨ new' f c) fs fs'' where
  grow := h.grow.trans h'.grow
  calls_iff f c := by rw [h'.calls_iff, h.calls_iff, or_assoc]
  calledBy_iff c f := by rw [h'.calledBy_iff, h.calledBy_iff, or_assoc]

theorem Notes.congr (h : Notes new fs fs') (hnew : ∀ f c, new f c ↔ new' f c) :
    Notes new' fs fs' where
  grow := h.grow
  calls_iff f c := by rw [h.calls_iff, hnew]
  calledBy_iff c f := by rw [h.calledBy_iff, hnew]

theorem Notes.after_none (h : Notes (fun _ _ => False) fs fs') (h' : Notes new fs' fs'') :
    Notes new fs fs'' :=
  (h.trans h').congr fun f c => by simp

theorem Notes.before_none (h : Notes new fs fs') (h' : Notes (fun _ _ => False) fs' fs'') :
    Notes new fs fs'' :=
  (h.trans h').congr fun f c => by simp

theorem notes_marks (fs : Functions) (key : String) {change : Function → Function}
    (hchange : ∀ f : Function, f.Marks (change f)) :
    Notes (fun _ _ => False) fs (Dict.adjust fs key change) where
  grow := related_adjust Function.Grows.refl fs key fun f => (hchange f).grows
  calls_iff f c := by simp [calls_adjust_of_eq fs key fun f => (hchange f).calls]
  calledBy_iff c f := by simp [calledBy_adjust_of_eq fs key fun f => (hchange f).calledBy]

theorem notes_call {caller callee : String} (hcaller : fs.has caller = true)
    (hcallee : fs.has callee = true) :
    Notes (fun f c => f = caller ∧ c = callee) fs
      (Dict.adjust (Dict.adjust fs caller (·.addCall callee)) callee (·.addCaller caller)) where
  grow := Grow.trans
    (related_adjust Function.Grows.refl _ _ fun f => f.grows_addCall callee)
    (related_adjust Function.Grows.refl _ _ fun f => f.grows_addCaller caller)
  calls_iff f c := by
    have hkept : ∀ f : Function, (f.addCaller caller).calls = f.calls := fun _ => rfl
    rw [calls_adjust_of_eq _ callee hkept, calls_adjust_addCall hcaller]
  calledBy_iff c f := by
    have hkept : ∀ f : Function, (f.addCall callee).calledBy = f.calledBy := fun _ => rfl
    have hcallee' : (Dict.adjust fs caller (·.addCall callee)).has callee = true := by
      rw [has_adjust, hcallee]
    rw [calledBy_adjust_addCaller hcallee', calledBy_adjust_of_eq _ caller hkept,
      and_comm (a := c = callee)]

/-- A loop notes what its turns note. What a turn notes may depend on the entries at the start,
because no turn changes what the next one reads. -/
theorem notes_foldl {α : Type} {step : Functions → α → Functions}
    {found : α → String → String → Prop} (l : List α) (hgrow : start.Grow fs)
    (hstep : ∀ x ∈ l, ∀ fs', start.Grow fs' → Notes (found x) fs' (step fs' x)) :
    Notes (fun f c => ∃ x ∈ l, found x f c) fs (l.foldl step fs) := by
  induction l generalizing fs with
  | nil => exact (notes_self fs).congr fun f c => by simp
  | cons x rest ih =>
    have hfirst := hstep x mem_cons_self fs hgrow
    have hrest := ih (hgrow.trans hfirst.grow) fun y hy => hstep y (mem_cons_of_mem x hy)
    exact (hfirst.trans hrest).congr fun f c => by rw [exists_mem_cons_iff]

theorem notes_foldl_none {α : Type} {step : Functions → α → Functions} (l : List α)
    (fs : Functions) (hstep : ∀ x fs', Notes (fun _ _ => False) fs' (step fs' x)) :
    Notes (fun _ _ => False) fs (l.foldl step fs) :=
  (notes_foldl l (Grow.refl fs) fun x _ fs' _ => hstep x fs').congr fun f c => by simp

end

end Functions

namespace CrossReferences

open Functions

/-! ### Passes that only set marks -/

theorem notes_noteInstantiation (fs : Functions) (called : String) :
    Notes (fun _ _ => False) fs (noteInstantiation templates fs called) := by
  unfold noteInstantiation
  dsimp only
  split
  · split
    · refine Notes.after_none (notes_marks _ _ ?_) (notes_marks _ _ ?_)
      · intro f
        exact ⟨rfl, rfl, rfl, rfl⟩
      · intro f
        cases argsOfName? ((split called "<").headD "") called <;> exact ⟨rfl, rfl, rfl, rfl⟩
    · exact notes_self fs
  · exact notes_self fs

theorem notes_instantiations (fs : Functions) :
    Notes (fun _ _ => False) fs (instantiations templates fs) := by
  refine notes_foldl_none fs.keys fs fun key fs' => ?_
  cases fs'.get? key with
  | none => exact notes_self fs'
  | some f => exact notes_foldl_none f.calls fs' fun called fs' =>
    notes_noteInstantiation templates fs' called

theorem notes_specializations (fs : Functions) :
    Notes (fun _ _ => False) fs (specializations fs) := by
  refine notes_foldl_none (specializationGroups fs) fs fun group fs' => ?_
  obtain ⟨base, names⟩ := group
  dsimp only
  split
  · refine notes_foldl_none names fs' fun name fs' => ?_
    refine Notes.after_none (notes_marks _ _ ?_) (notes_marks _ _ ?_)
    · intro f
      exact ⟨rfl, rfl, rfl, rfl⟩
    · intro f
      exact ⟨rfl, rfl, rfl, rfl⟩
  · exact notes_self fs'

/-! ### Passes that note calls -/

theorem notes_noteDependent
    (hmetafunctions : ∀ name ∈ metafunctions, fs.has name = true) {key : String}
    (hkey : fs.has key = true) (name : String) :
    Notes (fun f c => f = key ∧ c ∈ metafunctions ∧ dependentBase name = c) fs
      (noteDependent metafunctions key fs name) := by
  unfold noteDependent
  dsimp only
  split_ifs with hbase
  · have hmem : dependentBase name ∈ metafunctions := by simpa using hbase
    refine (notes_call hkey (hmetafunctions _ hmem)).congr fun f c => ?_
    constructor
    · rintro ⟨hf, rfl⟩
      exact ⟨hf, hmem, rfl⟩
    · rintro ⟨hf, _, rfl⟩
      exact ⟨hf, rfl⟩
  · refine (notes_self fs).congr fun f c => ?_
    simp only [false_iff]
    rintro ⟨_, hc, rfl⟩
    exact hbase (by simpa using hc)

theorem marks_markComposed (metafunctions : List String) (f : Function) :
    f.Marks (markComposed metafunctions f) := by
  unfold markComposed
  split <;> exact ⟨rfl, rfl, rfl, rfl⟩

/-- A dependent name of the one metafunction starts with the name of the other one. -/
def UsesMetafunction (metafunctions : List String) (fs : Functions) (f c : String) : Prop :=
  f ∈ metafunctions ∧ c ∈ metafunctions ∧
    ∃ entry, fs.get? f = some entry ∧ ∃ name ∈ entry.dependentNames, dependentBase name = c

theorem notes_metafunctionUses (hgrow : start.Grow fs)
    (hmetafunctions : ∀ name ∈ metafunctions, start.has name = true) :
    Notes (UsesMetafunction metafunctions start) fs (metafunctionUses metafunctions fs) := by
  let found := fun key f c => f = key ∧ c ∈ metafunctions ∧
    ∃ entry, start.get? key = some entry ∧ ∃ name ∈ entry.dependentNames, dependentBase name = c
  have hloop : Notes (fun f c => ∃ key ∈ metafunctions, found key f c) fs
      (metafunctionUses metafunctions fs) := by
    refine notes_foldl metafunctions hgrow fun key hkey fs' hgrow' => ?_
    obtain ⟨entry', hentry'⟩ : ∃ entry', fs'.get? key = some entry' :=
      (has_iff _ _).1 ((hgrow'.has_eq key).trans (hmetafunctions key hkey))
    obtain ⟨entry, hentry, hentries⟩ := hgrow'.get?_of_get? hentry'
    simp only [hentry']
    have hnames : Notes (found key) fs'
        (entry'.dependentNames.foldl (noteDependent metafunctions key) fs') := by
      refine (notes_foldl entry'.dependentNames hgrow' fun name _ fs'' hgrow'' =>
        notes_noteDependent (fun m hm => (hgrow''.has_eq m).trans (hmetafunctions m hm))
          ((hgrow''.has_eq key).trans (hmetafunctions key hkey)) name).congr fun f c => ?_
      simp only [found, hentry, hentries.dependentNames, Option.some.injEq, exists_eq_left']
      constructor
      · rintro ⟨name, hname, hf, hc, hbase⟩
        exact ⟨hf, hc, name, hname, hbase⟩
      · rintro ⟨hf, hc, name, hname, hbase⟩
        exact ⟨name, hname, hf, hc, hbase⟩
    exact hnames.before_none (notes_marks _ _ (marks_markComposed metafunctions))
  refine hloop.congr fun f c => ?_
  constructor
  · rintro ⟨key, hkey, rfl, hc, hentry⟩
    exact ⟨hkey, hc, hentry⟩
  · rintro ⟨hf, hc, hentry⟩
    exact ⟨f, hf, rfl, hc, hentry⟩

/-- The body of the one function mentions the other one, which is a template. -/
def MentionsTemplate (templates : List String) (fs : Functions) (f c : String) : Prop :=
  c ∈ templates ∧ ∃ entry, fs.get? f = some entry ∧ entry.body ≠ "" ∧
    occursIn c entry.body = true

theorem notes_noteMention (body : String) {key template : String}
    (hkey : fs.has key = true) (htemplate : fs.has template = true) :
    Notes (fun f c => f = key ∧ c = template ∧ occursIn template body = true) fs
      (if occursIn template body then
        Dict.adjust (Dict.adjust fs key (·.addCall template)) template (·.addCaller key)
      else fs) := by
  split_ifs with hoccurs
  · exact (notes_call hkey htemplate).congr fun f c => by simp [hoccurs]
  · exact (notes_self fs).congr fun f c => by simp [hoccurs]

theorem notes_bodyMentions {templates : List String} (hgrow : start.Grow fs)
    (htemplates : ∀ name ∈ templates, start.has name = true) :
    Notes (MentionsTemplate templates start) fs (bodyMentions templates fs) := by
  let found := fun key f c => f = key ∧ MentionsTemplate templates start key c
  have hloop : Notes (fun f c => ∃ key ∈ fs.keys, found key f c) fs
      (bodyMentions templates fs) := by
    refine notes_foldl fs.keys hgrow fun key hkey fs' hgrow' => ?_
    have hkey' : start.has key = true := by
      rw [← hgrow.has_eq, has_iff, ← mem_keys_iff]
      exact hkey
    obtain ⟨entry', hentry'⟩ : ∃ entry', fs'.get? key = some entry' :=
      (has_iff _ _).1 ((hgrow'.has_eq key).trans hkey')
    obtain ⟨entry, hentry, hentries⟩ := hgrow'.get?_of_get? hentry'
    simp only [hentry', hentries.body]
    split
    · next hempty =>
        refine (notes_self fs').congr fun f c => ?_
        have hbody : entry.body = "" := by simpa using hempty
        simp [found, MentionsTemplate, hentry, hbody]
    · next hbody =>
        have hbody' : entry.body ≠ "" := by simpa using hbody
        have hturns := notes_foldl templates hgrow' fun t ht fs'' hgrow'' =>
          notes_noteMention entry.body ((hgrow''.has_eq key).trans hkey')
            ((hgrow''.has_eq t).trans (htemplates t ht))
        refine hturns.congr fun f c => ?_
        simp only [found, MentionsTemplate, hentry, Option.some.injEq, exists_eq_left']
        constructor
        · rintro ⟨t, ht, hf, rfl, hoccurs⟩
          exact ⟨hf, ht, hbody', hoccurs⟩
        · rintro ⟨hf, hc, _, hoccurs⟩
          exact ⟨c, hc, hf, rfl, hoccurs⟩
  refine hloop.congr fun f c => ?_
  constructor
  · rintro ⟨key, _, rfl, hmentions⟩
    exact hmentions
  · rintro hmentions
    obtain ⟨_, entry, hentry, _⟩ := id hmentions
    refine ⟨f, ?_, rfl, hmentions⟩
    rw [Dict.Related.keys_eq hgrow]
    exact mem_keys_of_get? hentry

/-! ### All passes -/

/-- The names of the functions with a mark. -/
def marked (mark : Function → Bool) (fs : Functions) : List String :=
  Dict.keys (fs.filter (mark ·.2))

theorem has_of_mem_marked {mark : Function → Bool} {name : String}
    (h : name ∈ marked mark fs) : fs.has name = true := by
  rw [has_iff, ← mem_keys_iff]
  obtain ⟨entry, hentry, rfl⟩ := mem_map.1 h
  exact mem_map_of_mem (mem_of_mem_filter hentry)

/-- The calls that are found in a mode, read from the functions at the start. -/
def Reference (mode : CrossReferenceMode) (fs : Functions) (f c : String) : Prop :=
  match mode with
  | .basic | .unknown => False
  | .enhanced => UsesMetafunction (marked (·.isMetafunction) fs) fs f c
  | .full => UsesMetafunction (marked (·.isMetafunction) fs) fs f c ∨
      MentionsTemplate (marked (·.isTemplate) fs) fs f c

theorem has_of_reference {mode : CrossReferenceMode} {f c : String}
    (h : Reference mode fs f c) : fs.has f = true ∧ fs.has c = true := by
  have huses : UsesMetafunction (marked (·.isMetafunction) fs) fs f c →
      fs.has f = true ∧ fs.has c = true :=
    fun huses => ⟨has_of_mem_marked huses.1, has_of_mem_marked huses.2.1⟩
  cases mode with
  | basic => exact h.elim
  | unknown => exact h.elim
  | enhanced => exact huses h
  | full =>
    rcases h with h | ⟨hc, entry, hentry, _⟩
    · exact huses h
    · exact ⟨(has_iff _ _).2 ⟨entry, hentry⟩, has_of_mem_marked hc⟩

theorem notes_crossReferences (mode : CrossReferenceMode) (fs : Functions) :
    Notes (Reference mode fs) fs (crossReferences mode fs) := by
  have hinstances := notes_instantiations (marked (·.isTemplate) fs) fs
  have hmetafunctions : ∀ name ∈ marked (·.isMetafunction) fs, fs.has name = true :=
    fun _ => has_of_mem_marked
  have htemplates : ∀ name ∈ marked (·.isTemplate) fs, fs.has name = true :=
    fun _ => has_of_mem_marked
  have huses := hinstances.after_none (notes_metafunctionUses hinstances.grow hmetafunctions)
  cases mode with
  | basic => exact notes_self fs
  | unknown => exact notes_self fs
  | enhanced => exact huses
  | full =>
    have hmentions := huses.trans (notes_bodyMentions huses.grow htemplates)
    exact hmentions.before_none (notes_specializations _)

/-- References between files keep the names in their order and all that is known of calls and
callers. What they add is exactly what they find, on both sides of a call, so a graph in which
calls and callers agree stays one. -/
theorem crossReferences_extends (mode : CrossReferenceMode) (fs : Functions) :
    (crossReferences mode fs).keys = fs.keys ∧
      Dict.Related (fun f f' => f.calls <+: f'.calls ∧ f.calledBy <+: f'.calledBy) fs
        (crossReferences mode fs) ∧
      (∀ f c, (crossReferences mode fs).Calls f c ↔ fs.Calls f c ∨ Reference mode fs f c) ∧
      (∀ c f, (crossReferences mode fs).CalledBy c f ↔ fs.CalledBy c f ∨ Reference mode fs f c) ∧
      (∀ f c, Reference mode fs f c → fs.has f = true ∧ fs.has c = true) ∧
      ∀ missing, CallGraph.Mirrored ⟨fs, missing⟩ →
        CallGraph.Mirrored ⟨crossReferences mode fs, missing⟩ := by
  have hnotes := notes_crossReferences mode fs
  refine ⟨Dict.Related.keys_eq hnotes.grow,
    Dict.Related.mono (fun f f' hgrows => ⟨hgrows.calls, hgrows.calledBy⟩) hnotes.grow,
    hnotes.calls_iff, hnotes.calledBy_iff, fun f c => has_of_reference, ?_⟩
  intro missing hmirrored f c hf hc
  rw [hnotes.calls_iff, hnotes.calledBy_iff]
  have hbefore := hmirrored f c (hnotes.grow.has_eq f ▸ hf) (hnotes.grow.has_eq c ▸ hc)
  exact or_congr_left hbefore

/-- A template that uses a metafunction, and a function that mentions the template in its body. -/
def pairMaker : Functions :=
  [("make", { name := "make", body := "return Pair(a, b);" }),
    ("Pair", { name := "Pair", isTemplate := true, isMetafunction := true,
               dependentNames := ["First::type"] }),
    ("First", { name := "First", isMetafunction := true })]

theorem crossReferences_pairMaker :
    CallGraph.Mirrored ⟨pairMaker, []⟩ ∧ ¬ pairMaker.Calls "make" "Pair" ∧
      (crossReferences .full pairMaker).Calls "make" "Pair" ∧
      (crossReferences .full pairMaker).CalledBy "First" "Pair" ∧
      CallGraph.Mirrored ⟨crossReferences .full pairMaker, []⟩ := by
  obtain ⟨-, -, hcalls, hcalledBy, -, hmirrored⟩ := crossReferences_extends .full pairMaker
  have hbefore : CallGraph.Mirrored ⟨pairMaker, []⟩ := CallGraph.mirrored_of_entries (by decide)
  have hmention : Reference .full pairMaker "make" "Pair" :=
    .inr ⟨by decide, _, rfl, by decide, by decide⟩
  have huse : Reference .full pairMaker "Pair" "First" :=
    .inl ⟨by decide, by decide, _, rfl, "First::type", by decide, by decide⟩
  have hnone : ¬ pairMaker.Calls "make" "Pair" := by
    rintro ⟨entry, hentry, hmem⟩
    cases hentry
    cases hmem
  exact ⟨hbefore, hnone, (hcalls _ _).2 (.inr hmention), (hcalledBy _ _).2 (.inr huse),
    hmirrored [] hbefore⟩

end CrossReferences

end CodeAtlas

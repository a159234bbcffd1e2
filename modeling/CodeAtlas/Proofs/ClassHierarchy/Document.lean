import CodeAtlas.ClassHierarchy.Commands
import CodeAtlas.Proofs.Fault
import CodeAtlas.Proofs.ClassHierarchy.Invariant
import Mathlib.Data.Finset.Dedup

/-!
# Class hierarchies and their documents

A hierarchy is written under the names of its classes, and reading goes by the
names inside of the classes alone. What is read is what was written where the
two agree: `ClassHierarchy.Keyed` says that the keys are distinct and that each
is the name of its class. Work on a hierarchy starts with no class at all, and
every command keeps `Keyed`, also one that fails half way. A set is written in
the order of code points, so that it comes back as a set and not as a list
(`ClassNode.Same`).
-/

namespace CodeAtlas

open Text List ClassHierarchy Dict

variable {step : Json → ClassWork ClassView} {c : ClassNode} (l : List String)
  (s : ClassWorkspace)

theorem Text.mem_distinct_sorted {l : List String} {x : String} :
    x ∈ distinct (sorted l) ↔ x ∈ l := by
  rw [distinct_eq, mem_eraseDups]
  exact (mergeSort_perm _ _).mem_iff

namespace ClassNode

/-- The same class: the same data and the same sets. -/
structure Same (c c' : ClassNode) : Prop where
  name : c'.name = c.name
  location : c'.location = c.location
  bases : c'.bases.toFinset = c.bases.toFinset
  derived : c'.derived.toFinset = c.derived.toFinset
  baseAccess : c'.baseAccess = c.baseAccess
  virtuals : c'.virtuals.toFinset = c.virtuals.toFinset
  /-- The virtual methods without a definition. -/
  pureVirtuals : c'.pureVirtuals.toFinset = c.pureVirtuals.toFinset
  /-- The overridden methods, in their order. -/
  overridden : Dict.Related (fun l l' => l'.toFinset = l.toFinset) c.overridden c'.overridden
  signatures : c'.signatures = c.signatures

def ordered (c : ClassNode) : ClassNode :=
  let order := fun l => distinct (sorted l)
  { c with
    bases := order c.bases
    derived := order c.derived
    virtuals := order c.virtuals
    pureVirtuals := order c.pureVirtuals
    overridden := Dict.mapValues order c.overridden }

theorem toFinset_distinct_sorted : (distinct (sorted l)).toFinset = l.toFinset := by
  ext x
  rw [mem_toFinset, mem_toFinset, mem_distinct_sorted]

theorem same_ordered (c : ClassNode) : c.Same c.ordered where
  name := rfl
  location := rfl
  bases := toFinset_distinct_sorted c.bases
  derived := toFinset_distinct_sorted c.derived
  baseAccess := rfl
  virtuals := toFinset_distinct_sorted c.virtuals
  pureVirtuals := toFinset_distinct_sorted c.pureVirtuals
  overridden := by
    refine forall₂_map_right_iff.2 (forall₂_same.2 ?_)
    intro entry _
    exact ⟨rfl, toFinset_distinct_sorted entry.2⟩
  signatures := rfl

@[simp] theorem members_ofStrings (l : List String) :
    members (.ofStrings l) = .ok (distinct l) := by
  have hmap : (l.map Json.str).mapM member = Except.ok l := by
    induction l with
    | nil => rfl
    | cons s rest ih =>
      rw [map_cons, mapM_cons, ih]
      rfl
  simp only [Json.ofStrings, members, hmap]
  rfl

theorem mapM_members (d : Dict (List String)) :
    (d.map fun entry => (entry.1, Json.ofStrings (sorted entry.2))).mapM
        (fun entry => return (entry.1, ← members entry.2)) =
      Except.ok (Dict.mapValues (fun l => distinct (sorted l)) d) := by
  induction d with
  | nil => rfl
  | cons entry rest ih =>
    rw [map_cons, mapM_cons, ih]
    simp only [members_ofStrings]
    rfl

theorem ofJson_toJson (c : ClassNode) : ofJson c.toJson = .ok c.ordered := by
  have hoverridden := mapM_members c.overridden
  simp only [ofJson, toJson, Json.get?, Json.getD, lookup_cons]
  simp only [String.reduceBEq, Option.getD_some, members_ofStrings]
  rw [hoverridden]
  rfl

theorem name_setSignature {c' : ClassNode} {method : String} {signature : Json}
    (h : c.setSignature method signature = .ok c') : c'.name = c.name := by
  obtain ⟨signatures, -, hc'⟩ := exists_of_bind_eq_ok h
  cases hc'
  rfl

end ClassNode

namespace ClassHierarchy

variable {h : ClassHierarchy}

/-- The keys are distinct, and each is the name of its class. -/
structure Keyed (h : ClassHierarchy) : Prop where
  distinct : h.classes.keys.Nodup
  named : Dict.All (fun key c => c.name = key) h.classes

theorem keyed_empty : Keyed {} := ⟨nodup_nil, all_nil _⟩

theorem Keyed.addClass (hh : h.Keyed) (c : ClassNode) : (h.addClass c).Keyed :=
  ⟨nodup_keys_set hh.distinct c.name c, hh.named.set rfl⟩

theorem Keyed.ensure (hh : h.Keyed) (name : String) : (h.ensure name).Keyed := by
  unfold ClassHierarchy.ensure
  split
  · exact hh
  · exact hh.addClass _

theorem Keyed.adjust (hh : h.Keyed) {name : String} (hc : c.name = name) :
    (h.adjust name fun _ => c).Keyed := by
  refine ⟨?_, hh.named.adjust fun _ _ => hc⟩
  rw [ClassHierarchy.adjust, keys_adjust]
  exact hh.distinct

theorem Keyed.name_of_getClass? (hh : h.Keyed) {name : String} (hc : h.getClass? name = some c) :
    c.name = name :=
  hh.named (name, c) (mem_of_get? hc)

theorem keyed_ofJson (j : Json) : Ensures Keyed (ofJson j) := by
  have hfields : ∀ fields : List (String × Json), Ensures Keyed
      (fields.foldlM (fun h entry => return h.addClass (← ClassNode.ofJson entry.2)) {}) := by
    intro fields h hread
    refine foldlM_invariant Keyed fields ?_ keyed_empty hread
    intro known entry next _ hknown hnext
    obtain ⟨c, -, hc⟩ := exists_of_bind_eq_ok hnext
    cases hc
    exact hknown.addClass c
  cases j with
  | obj members =>
    unfold ofJson
    cases Json.getD (.obj members) "classes" (.obj []) with
    | obj fields => exact hfields fields
    | _ => exact ensures_error Keyed _
  | _ => exact ensures_error Keyed _

theorem foldlM_addClass {d : Dict ClassNode} (hd : Dict.All (fun key c => c.name = key) d)
    (known : ClassHierarchy) :
    (d.map fun entry => (entry.1, entry.2.toJson)).foldlM
        (fun h entry => return h.addClass (← ClassNode.ofJson entry.2)) known =
      Except.ok (mk ((Dict.mapValues ClassNode.ordered d).foldl
        (fun acc entry => Dict.set acc entry.1 entry.2) known.classes)) := by
  induction d generalizing known with
  | nil => rfl
  | cons entry rest ih =>
    have hname : entry.2.name = entry.1 := hd entry mem_cons_self
    have hrest := ih (fun e he => hd e (mem_cons_of_mem entry he))
      (known.addClass entry.2.ordered)
    rw [map_cons, foldlM_cons, ClassNode.ofJson_toJson]
    refine hrest.trans ?_
    simp [Dict.mapValues, addClass, ClassNode.ordered, hname]

theorem Keyed.ofJson_toJson (hh : h.Keyed) :
    ofJson h.toJson = .ok ⟨Dict.mapValues ClassNode.ordered h.classes⟩ := by
  have hkeys : (Dict.mapValues ClassNode.ordered h.classes).keys.Nodup :=
    (keys_mapValues _ _).symm ▸ hh.distinct
  rw [← Dict.ofPairs_eq_self hkeys]
  exact foldlM_addClass hh.named {}

end ClassHierarchy

namespace ClassWorkspace

/-- Work that keeps a property of the workspace, also where it fails. -/
def Keeps {α : Type} (P : ClassWorkspace → Prop) (x : ClassWork α) : Prop :=
  ∀ s, P s → P (x.run.run s).2

section

variable {α β : Type} {P : ClassWorkspace → Prop}

theorem keeps_pure (a : α) : Keeps P (pure a : ClassWork α) := fun _ hs => hs

theorem keeps_throw (e : Fault) : Keeps P (throw e : ClassWork α) := fun _ hs => hs

theorem keeps_bind {x : ClassWork α} {next : α → ClassWork β} (hx : Keeps P x)
    (hnext : ∀ a, Keeps P (next a)) : Keeps P (x >>= next) := by
  intro s hs
  have hs₁ : P (x.run.run s).2 := hx s hs
  rw [ExceptT.run_bind, StateT.run_bind]
  cases hrun : x.run.run s with
  | mk outcome s₁ =>
    rw [hrun] at hs₁
    cases outcome with
    | ok a => exact hnext a s₁ hs₁
    | error e => exact hs₁

theorem keeps_lift {x : Except Fault α} {next : α → ClassWork β}
    (hnext : ∀ a, x = .ok a → Keeps P (next a)) : Keeps P (liftM x >>= next) := by
  cases x with
  | error e => exact keeps_throw e
  | ok a => exact hnext a rfl

theorem keeps_get {next : ClassWorkspace → ClassWork β} (hnext : ∀ s, P s → Keeps P (next s)) :
    Keeps P (get >>= next) := fun s hs => hnext s hs s hs

theorem keeps_modify {f : ClassWorkspace → ClassWorkspace} {next : PUnit → ClassWork β}
    (hf : ∀ s, P s → P (f s)) (hnext : Keeps P (next ⟨⟩)) : Keeps P (modify f >>= next) :=
  fun s hs => hnext (f s) (hf s hs)

end

def Keyed (s : ClassWorkspace) : Prop := s.hierarchy.Keyed

theorem hierarchy_noteTable (name : String) : (s.noteTable name).hierarchy = s.hierarchy := by
  unfold noteTable
  cases s.tables.get? name <;> rfl

theorem hierarchy_load (h : ClassHierarchy) : (s.load h).hierarchy = h := by
  have hfold : ∀ (names : List String) (s : ClassWorkspace),
      (names.foldl newTable s).hierarchy = s.hierarchy := by
    intro names
    induction names with
    | nil => exact fun _ => rfl
    | cons name rest ih => exact fun s => ih (s.newTable name)
  exact hfold _ _

theorem Keyed.create {s : ClassWorkspace} (hs : s.Keyed) (name : String) :
    (s.create name).Keyed := by
  have hensure : (s.hierarchy.ensure name).Keyed := hs.ensure name
  unfold ClassWorkspace.create
  dsimp only
  split
  · exact hensure
  · exact hensure

theorem Keyed.name_of_find {s : ClassWorkspace} (hs : s.Keyed) {name : String}
    (hc : s.find name = .ok c) : c.name = name := by
  unfold find at hc
  cases hknown : s.hierarchy.getClass? name with
  | none => simp [hknown] at hc
  | some c' =>
    obtain rfl : c' = c := by simpa [hknown] using hc
    exact hs.name_of_getClass? hknown

theorem keeps_change (name : String) {f : ClassNode → Except Fault ClassNode}
    (hf : ∀ c, Ensures (fun c' => c'.name = c.name) (f c)) : Keeps Keyed (change name f) := by
  refine keeps_get fun s hs => keeps_lift fun c hc => keeps_lift fun c' hc' =>
    keeps_modify ?_ (keeps_get fun _ _ => keeps_pure _)
  intro s' hs'
  rw [Keyed, hierarchy_noteTable]
  exact ClassHierarchy.Keyed.adjust hs' ((hf c c' hc').trans (hs.name_of_find hc))

theorem keeps_perform (j : Json) : Keeps Keyed (perform j) := by
  have hread : ∀ d, Ensures ClassHierarchy.Keyed (ofJson d) := keyed_ofJson
  unfold perform
  dsimp only
  split
  · exact keeps_lift fun name _ =>
      keeps_modify (fun s hs => hs.create name) (keeps_get fun _ _ => keeps_pure _)
  · exact keeps_get fun _ _ => keeps_lift fun _ _ => keeps_pure _
  · exact keeps_lift fun c _ =>
      keeps_modify (fun s hs => ClassHierarchy.Keyed.addClass hs c) (keeps_pure _)
  · refine keeps_lift fun h hh => keeps_modify (fun s _ => ?_) (keeps_get fun _ _ => keeps_pure _)
    rw [Keyed, hierarchy_load]
    exact hread _ h hh
  · exact keeps_get fun _ _ => keeps_lift fun h hh =>
      keeps_modify (fun s _ => hread _ h hh) (keeps_get fun _ _ => keeps_pure _)
  · exact keeps_get fun _ _ => keeps_pure _
  · exact keeps_get fun _ _ => keeps_lift fun _ _ => keeps_pure _
  · exact keeps_get fun _ _ => keeps_lift fun _ _ => keeps_pure _
  · exact keeps_get fun _ _ => keeps_lift fun _ _ => keeps_lift fun _ _ =>
      keeps_lift fun _ _ => keeps_pure _
  · exact keeps_lift fun name _ => keeps_change name fun c =>
      ensures_bind fun _ _ c' hc' => ClassNode.name_setSignature hc'
  · exact keeps_lift fun name _ => keeps_change name fun c => ensures_bind fun _ _ => ensures_ok rfl
  · exact keeps_lift fun name _ => keeps_change name fun c => ensures_bind fun _ _ => ensures_ok rfl
  · exact keeps_lift fun name _ => keeps_change name fun c => ensures_bind fun _ _ => ensures_ok rfl
  · refine keeps_lift fun name _ => keeps_bind (keeps_change name fun c => ?_) fun _ =>
      keeps_change name fun c => ?_
    · exact ensures_bind fun _ _ => ensures_ok rfl
    · exact ensures_bind fun _ _ => ensures_bind fun _ _ => ensures_ok rfl
  · exact keeps_throw _

theorem takeStep_keeps {P : ClassWorkspace → Prop} (fault : Fault → Json)
    {done : List ClassView × ClassWorkspace} {j : Json} (hstep : Keeps P (step j))
    (hdone : P done.2) : P (takeStep step fault done j).2 := by
  have hnext : P ((step j).run.run done.2).2 := hstep done.2 hdone
  unfold takeStep
  cases hrun : (step j).run.run done.2 with
  | mk outcome s =>
    rw [hrun] at hnext
    cases outcome <;> exact hnext

theorem work_keeps {P : ClassWorkspace → Prop} (hstep : ∀ j, Keeps P (step j)) (hstart : P {})
    (fault : Fault → Json) (steps : List Json) : P (work step fault steps).2 :=
  foldlRecOn (motive := fun done => P done.2) steps (takeStep step fault) hstart
    fun _ hdone j _ => takeStep_keeps fault (hstep j) hdone

/-- Work on a hierarchy leaves each class under its name, and the document of what it leaves reads
back as the same classes in the same order. -/
theorem ofJson_toJson_work (fault : Fault → Json) (commands : List Json) :
    let h := (work perform fault commands).2.hierarchy
    Dict.All (fun key c => c.name = key) h.classes ∧
      ∃ h', ClassHierarchy.ofJson h.toJson = .ok h' ∧
        Dict.Related ClassNode.Same h.classes h'.classes := by
  intro h
  have hh : h.Keyed :=
    work_keeps keeps_perform ClassHierarchy.keyed_empty fault commands
  refine ⟨hh.named, _, hh.ofJson_toJson, ?_⟩
  refine forall₂_map_right_iff.2 (forall₂_same.2 ?_)
  intro entry _
  exact ⟨rfl, entry.2.same_ordered⟩

end ClassWorkspace

end CodeAtlas

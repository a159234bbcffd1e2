import CodeAtlas.Proofs.ClassHierarchy.Invariant

/-!
# Which methods are overridden

Resolving a hierarchy reads it and writes to it at the same time. What it writes
is not among what it reads, so the pass is a list of entries that is known
beforehand: `overrideList h` has `(a, b, m)` exactly when `b` is a base of `a`
and both have the virtual method `m` with the same number of parameters, and
`resolve_eq_enterAll` says that the pass makes exactly these entries. It never
fails on a consistent hierarchy. That a second pass changes nothing follows
from the same list, because entering what is there already has no effect.
-/

namespace CodeAtlas

open List ClassHierarchy Dict

variable {c : ClassNode}

namespace ClassNode

variable {method : String}

def sameArity (c d : ClassNode) (method : String) : Bool :=
  match c.paramTypes? method, d.paramTypes? method with
  | some s, some t => s.length == t.length
  | _, _ => false

theorem sameArity_iff (c d : ClassNode) (method : String) :
    c.sameArity d method = true ↔
      ∃ s t, c.paramTypes? method = some s ∧ d.paramTypes? method = some t ∧
        s.length = t.length := by
  unfold sameArity
  cases c.paramTypes? method <;> cases d.paramTypes? method <;> simp

theorem WellFormed.signature_isSome_iff (hc : c.WellFormed) (method : String) :
    (∃ s, c.signatures.get? method = some s) ↔ method ∈ c.virtuals := by
  obtain ⟨fields, hfields, hkeys⟩ := hc.signed
  rw [← hkeys, mem_keys_iff, hfields]
  rfl

theorem WellFormed.paramTypes?_isSome_iff (hc : c.WellFormed) (method : String) :
    (∃ types, c.paramTypes? method = some types) ↔ method ∈ c.virtuals := by
  constructor
  · rintro ⟨types, htypes⟩
    rw [← hc.signature_isSome_iff]
    cases hsignature : c.signatures.get? method with
    | none => simp [paramTypes?, hsignature] at htypes
    | some s => exact ⟨s, rfl⟩
  · exact hc.counted method

theorem parameterCount_of_paramTypes? {types : List Json} {signature : Json}
    (hsignature : c.signatures.get? method = some signature)
    (htypes : c.paramTypes? method = some types) : parameterCount signature = .ok types.length := by
  rw [paramTypes?, hsignature, Option.bind_some] at htypes
  obtain ⟨value, hvalue, harr⟩ := Option.bind_eq_some_iff.1 htypes
  cases value with
  | arr items =>
    have hitems : items = types := by simpa [Json.arr?] using harr
    cases signature with
    | obj fields =>
      have hget : Dict.get? fields "param_types" = some (.arr items) := hvalue
      simp [parameterCount, hget, hitems]
    | _ => cases hvalue
  | _ => cases harr

theorem WellFormed.methods_eq (hc : c.WellFormed) :
    ∃ names, c.methods = .ok names ∧ ∀ m, m ∈ names ↔ m ∈ c.virtuals := by
  obtain ⟨fields, hfields, hkeys⟩ := hc.signed
  exact ⟨Dict.keys fields, by simp [methods, hfields], hkeys⟩

theorem isCompatible_eq {d : ClassNode} (hc : c.WellFormed) (hd : d.WellFormed)
    (hmc : method ∈ c.virtuals) (hmd : method ∈ d.virtuals) :
    isCompatible d c method = .ok (c.sameArity d method) := by
  obtain ⟨s, hs⟩ := (hc.signature_isSome_iff method).2 hmc
  obtain ⟨t, ht⟩ := (hd.signature_isSome_iff method).2 hmd
  obtain ⟨ss, hss⟩ := hc.counted method hmc
  obtain ⟨ts, hts⟩ := hd.counted method hmd
  have hs' := parameterCount_of_paramTypes? hs hss
  have ht' := parameterCount_of_paramTypes? ht hts
  have hbeq : (ts.length == ss.length) = (ss.length == ts.length) := BEq.comm
  simp only [isCompatible, hs, ht, hs', ht', sameArity, hss, hts, ← hbeq]
  rfl

theorem addVirtual_false (hm : method ∈ c.virtuals) : c.addVirtual method false = c := by
  simp [addVirtual, addNew_eq_self hm]

theorem addOverridden_eq_self {base : String} (h : base ∈ (c.overridden.get? method).getD []) :
    c.addOverridden method base = c := by
  cases hget : c.overridden.get? method with
  | none => simp [hget] at h
  | some l =>
    have hmem : base ∈ l := by simpa [hget] using h
    simp only [addOverridden, hget, Option.getD_some, addNew_eq_self hmem, set_eq_self hget]

theorem mem_overridden_addOverridden (c : ClassNode) (method base m x : String) :
    x ∈ ((c.addOverridden method base).overridden.get? m).getD [] ↔
      x ∈ (c.overridden.get? m).getD [] ∨ m = method ∧ x = base := by
  unfold addOverridden
  rw [get?_set]
  by_cases hm : m = method
  · subst hm
    simp [mem_addNew]
  · simp [hm]

theorem overridden_addOverridden_ne_nil (hc : ∀ m, c.overridden.get? m ≠ some [])
    (method base m : String) : (c.addOverridden method base).overridden.get? m ≠ some [] := by
  unfold addOverridden
  rw [get?_set]
  split
  · intro h
    have hnil := Option.some.inj h
    have hmem : base ∈ addNew ((c.overridden.get? method).getD []) base := mem_addNew.2 (.inr rfl)
    rw [hnil] at hmem
    exact not_mem_nil hmem
  · exact hc m

def withoutOverrides (c : ClassNode) : ClassNode := { c with overridden := [] }

end ClassNode

namespace ClassHierarchy

variable {h : ClassHierarchy} {name : String}

def matchesBase (h : ClassHierarchy) (name base method : String) : Bool :=
  match h.getClass? name, h.getClass? base with
  | some c, some d => c.sameArity d method
  | _, _ => false

def enter (h : ClassHierarchy) (entry : String × String × String) : ClassHierarchy :=
  h.adjust entry.1 (·.addOverridden entry.2.2 entry.2.1)

def enterAll (h : ClassHierarchy) (entries : List (String × String × String)) : ClassHierarchy :=
  entries.foldl enter h

theorem enterAll_append (h : ClassHierarchy) (entries entries' : List (String × String × String)) :
    h.enterAll (entries ++ entries') = (h.enterAll entries).enterAll entries' :=
  foldl_append

def overrideList (h : ClassHierarchy) : List (String × String × String) :=
  h.classes.keys.flatMap fun name =>
    (h.related (·.bases) name).flatMap fun base =>
      (h.related (·.virtuals) base).flatMap fun method =>
        if h.matchesBase name base method then [(name, base, method)] else []

theorem mem_overrideList_iff (h : ClassHierarchy) (name base method : String) :
    (name, base, method) ∈ h.overrideList ↔
      base ∈ h.related (·.bases) name ∧ method ∈ h.related (·.virtuals) base ∧
        h.matchesBase name base method = true := by
  have hknown : base ∈ h.related (·.bases) name → name ∈ h.classes.keys := by
    intro hbase
    obtain ⟨c, hc, _⟩ := (mem_related_iff _ _ _ _).1 hbase
    exact mem_keys_of_get? hc
  simp only [overrideList, mem_flatMap]
  constructor
  · rintro ⟨name', _, base', hbase, method', hmethod, hentry⟩
    split_ifs at hentry with hmatch
    · simp only [mem_singleton, Prod.mk.injEq] at hentry
      obtain ⟨rfl, rfl, rfl⟩ := hentry
      exact ⟨hbase, hmethod, hmatch⟩
    · cases hentry
  · rintro ⟨hbase, hmethod, hmatch⟩
    exact ⟨name, hknown hbase, base, hbase, method, hmethod, by simp [hmatch]⟩

def SameClasses (h h' : ClassHierarchy) : Prop :=
  ∀ name, (h.getClass? name).map (·.withoutOverrides) =
    (h'.getClass? name).map (·.withoutOverrides)

theorem sameClasses_enter (h : ClassHierarchy) (entry : String × String × String) :
    (h.enter entry).SameClasses h := by
  intro name
  rw [enter, getClass?_adjust]
  by_cases hname : name = entry.1
  · simp only [hname, if_true, Option.map_map]
    rfl
  · simp [hname]

theorem SameClasses.related_eq {h' : ClassHierarchy} (hsame : h.SameClasses h')
    (next : ClassNode → List String) (hnext : ∀ c, next c.withoutOverrides = next c)
    (name : String) : h.related next name = h'.related next name := by
  have hmap : ∀ h : ClassHierarchy,
      h.related next name = (((h.getClass? name).map (·.withoutOverrides)).map next).getD [] := by
    intro h
    unfold related
    cases h.getClass? name <;> simp [hnext]
  rw [hmap h, hmap h', hsame name]

theorem SameClasses.matchesBase_eq {h' : ClassHierarchy} (hsame : h.SameClasses h')
    (name base method : String) :
    h.matchesBase name base method = h'.matchesBase name base method := by
  have hmap : ∀ h : ClassHierarchy, h.matchesBase name base method =
      match (h.getClass? name).map (·.withoutOverrides),
        (h.getClass? base).map (·.withoutOverrides) with
      | some c, some d => c.sameArity d method
      | _, _ => false := by
    intro h
    unfold matchesBase
    cases h.getClass? name <;> cases h.getClass? base <;> rfl
  rw [hmap h, hmap h', hsame name, hsame base]

theorem Consistent.enter (hh : h.Consistent) (entry : String × String × String) :
    (h.enter entry).Consistent :=
  hh.adjust entry.1 (fun _ hc => ⟨hc.access, hc.signed, hc.counted, hc.pure_virtual⟩)
    (fun _ => rfl) (fun _ => rfl)

theorem noteOverridden_eq (hh : h.Consistent) {base method : String}
    (hmethod : method ∈ h.related (·.virtuals) base) :
    noteOverridden name base h method =
      .ok (if h.matchesBase name base method then h.enter (name, base, method) else h) := by
  obtain ⟨d, hd, hmd⟩ := (mem_related_iff _ _ _ _).1 hmethod
  unfold noteOverridden matchesBase
  cases hc : h.getClass? name with
  | none => simp [pure, Except.pure]
  | some c =>
    have hwc := hh.wellFormed name c hc
    have hwd := hh.wellFormed base d hd
    obtain ⟨names, hnames, hmem⟩ := hwc.methods_eq
    by_cases hmc : method ∈ c.virtuals
    · have hcontains : names.contains method = true := by simpa using (hmem method).2 hmc
      have hcompatible := ClassNode.isCompatible_eq hwc hwd hmc hmd
      -- the method is virtual already, so only the entry is new
      have hentry : (h.adjust name fun c => (c.addOverridden method base).addVirtual method false)
          = h.enter (name, base, method) := by
        unfold enter adjust
        congr 1
        apply adjust_congr hh.distinct
        intro c' hc'
        have hc'' : c' = c := Option.some.inj (hc'.symm.trans hc)
        subst hc''
        exact ClassNode.addVirtual_false (c := c'.addOverridden method base) hmc
      simp only [hd, hnames, hcompatible, hcontains, bind, Except.bind, pure, Except.pure,
        Bool.true_and, hentry]
      split <;> rfl
    · have hcontains : names.contains method = false := by
        simpa using fun hin => hmc ((hmem method).1 hin)
      have hunsigned : c.signatures.get? method = none := by
        rw [← Option.not_isSome_iff_eq_none, Option.isSome_iff_exists, hwc.signature_isSome_iff]
        exact hmc
      have hcompatible : isCompatible d c method = .ok false := by
        unfold isCompatible
        rw [hunsigned]
        cases d.signatures.get? method <;> rfl
      have harity : c.sameArity d method = false := by
        simp [ClassNode.sameArity, ClassNode.paramTypes?, hunsigned]
      simp only [hd, hnames, hcompatible, hcontains, harity, bind, Except.bind, pure, Except.pure]
      rfl

/-- What the pass reads, as it stands at any moment of it. -/
structure Reads (h₀ h : ClassHierarchy) : Prop where
  consistent : h.Consistent
  /-- All but the overridden methods is as it was. -/
  same : h.SameClasses h₀

theorem Consistent.reads_self (hh : h.Consistent) : h.Reads h := ⟨hh, fun _ => rfl⟩

theorem Reads.enterAll {h₀ : ClassHierarchy} (hr : h₀.Reads h)
    (entries : List (String × String × String)) : h₀.Reads (h.enterAll entries) := by
  refine foldlRecOn entries enter hr (motive := h₀.Reads) ?_
  intro h hr entry _
  exact ⟨hr.consistent.enter entry, fun name =>
    (sameClasses_enter h entry name).trans (hr.same name)⟩

theorem foldlM_eq_enterAll {α : Type} {h₀ : ClassHierarchy} (l : List α)
    (step : ClassHierarchy → α → Except Fault ClassHierarchy)
    (entries : α → List (String × String × String))
    (hstep : ∀ h a, a ∈ l → h₀.Reads h → step h a = .ok (h.enterAll (entries a)))
    (hr : h₀.Reads h) : l.foldlM step h = .ok (h.enterAll (l.flatMap entries)) := by
  induction l generalizing h with
  | nil => rfl
  | cons a rest ih =>
    have hhead := hstep h a (mem_cons_self ..) hr
    have htail := ih (fun h b hb => hstep h b (mem_cons_of_mem a hb))
      (hr.enterAll (entries a))
    rw [foldlM_cons, hhead, flatMap_cons, enterAll_append]
    exact htail

/-- The pass never fails, and makes exactly the entries of the list. -/
theorem resolve_eq_enterAll (hh : h.Consistent) : resolve h = .ok (h.enterAll h.overrideList) := by
  refine foldlM_eq_enterAll _ _ _ ?_ hh.reads_self
  intro h₁ name _ hr₁
  unfold resolveClass
  rw [hr₁.same.related_eq (·.bases) (fun _ => rfl)]
  refine foldlM_eq_enterAll _ _ _ ?_ hr₁
  intro h₂ base _ hr₂
  rw [hr₂.same.related_eq (·.virtuals) (fun _ => rfl)]
  refine foldlM_eq_enterAll _ _ _ ?_ hr₂
  intro h₃ method hmethod hr₃
  rw [← hr₃.same.related_eq (·.virtuals) (fun _ => rfl)] at hmethod
  rw [noteOverridden_eq hr₃.consistent hmethod, hr₃.same.matchesBase_eq]
  split <;> rfl

/-- The bases whose method a class overrides. -/
def overriddenAt (h : ClassHierarchy) (name method : String) : List String :=
  ((h.getClass? name).bind (·.overridden.get? method)).getD []

theorem overriddenAt_of_getClass? (hc : h.getClass? name = some c) (method : String) :
    h.overriddenAt name method = (c.overridden.get? method).getD [] := by
  simp [overriddenAt, hc]

theorem mem_overriddenAt_enter (h : ClassHierarchy) (entry : String × String × String)
    (hknown : h.Knows entry.1) (name method base : String) :
    base ∈ (h.enter entry).overriddenAt name method ↔
      base ∈ h.overriddenAt name method ∨ (name, base, method) = entry := by
  obtain ⟨name', base', method'⟩ := entry
  obtain ⟨c, hc⟩ := hknown
  unfold enter overriddenAt
  rw [getClass?_adjust]
  by_cases hname : name = name'
  · subst hname
    have hmem := ClassNode.mem_overridden_addOverridden c method' base' method base
    simp only [hc, if_true, Option.map_some, Option.bind_some, hmem, Prod.mk.injEq, true_and]
    tauto
  · simp [hname]

theorem mem_overriddenAt_enterAll (entries : List (String × String × String))
    (h : ClassHierarchy) (hknown : ∀ entry ∈ entries, h.Knows entry.1)
    (name method base : String) :
    base ∈ (h.enterAll entries).overriddenAt name method ↔
      base ∈ h.overriddenAt name method ∨ (name, base, method) ∈ entries := by
  induction entries generalizing h with
  | nil => simp [enterAll]
  | cons entry rest ih =>
    have hrest : ∀ e ∈ rest, (h.enter entry).Knows e.1 := fun e he =>
      (knows_adjust _ _ _ _).2 (hknown e (mem_cons_of_mem entry he))
    have hstep := mem_overriddenAt_enter h entry (hknown entry (mem_cons_self ..))
      name method base
    have hfold : h.enterAll (entry :: rest) = (h.enter entry).enterAll rest := rfl
    rw [hfold, ih (h.enter entry) hrest, hstep, mem_cons, or_assoc]

theorem enterAll_eq_self (hh : h.Consistent) {entries : List (String × String × String)}
    (hthere : ∀ e ∈ entries, e.2.1 ∈ h.overriddenAt e.1 e.2.2) : h.enterAll entries = h := by
  induction entries with
  | nil => rfl
  | cons entry rest ih =>
    have hentry : h.enter entry = h := by
      unfold enter adjust
      rw [adjust_eq_self hh.distinct]
      intro c hc
      have hmem := hthere entry (mem_cons_self ..)
      rw [overriddenAt_of_getClass? hc] at hmem
      exact ClassNode.addOverridden_eq_self hmem
    have hfold : h.enterAll (entry :: rest) = (h.enter entry).enterAll rest := rfl
    rw [hfold, hentry]
    exact ih fun e he => hthere e (mem_cons_of_mem entry he)

theorem every_overridden_enterAll (hh : h.Every fun c => ∀ m, c.overridden.get? m ≠ some [])
    (entries : List (String × String × String)) :
    (h.enterAll entries).Every fun c => ∀ m, c.overridden.get? m ≠ some [] := by
  refine foldlRecOn entries enter hh
    (motive := fun h => h.Every fun c => ∀ m, c.overridden.get? m ≠ some []) ?_
  intro h hh entry _
  exact hh.adjust entry.1 fun c hc =>
    ClassNode.overridden_addOverridden_ne_nil hc entry.2.2 entry.2.1

theorem Consistent.mem_overrideList_iff (hh : h.Consistent) (hc : h.getClass? name = some c)
    (base method : String) :
    (name, base, method) ∈ h.overrideList ↔
      base ∈ c.bases ∧ method ∈ c.virtuals ∧
        ∃ d, h.getClass? base = some d ∧ method ∈ d.virtuals ∧ c.sameArity d method = true := by
  rw [ClassHierarchy.mem_overrideList_iff, related_of_getClass? hc, mem_related_iff]
  constructor
  · rintro ⟨hbase, ⟨d, hd, hmd⟩, hmatch⟩
    have harity : c.sameArity d method = true := by simpa [matchesBase, hc, hd] using hmatch
    obtain ⟨s, _, hs, _, _⟩ := (ClassNode.sameArity_iff c d method).1 harity
    have hmc := ((hh.wellFormed name c hc).paramTypes?_isSome_iff method).1 ⟨s, hs⟩
    exact ⟨hbase, hmc, d, hd, hmd, harity⟩
  · rintro ⟨hbase, _, d, hd, hmd, harity⟩
    exact ⟨hbase, ⟨d, hd, hmd⟩, by simpa [matchesBase, hc, hd] using harity⟩

/-- What a hierarchy satisfies once its overridden methods are known. -/
structure Resolved (h : ClassHierarchy) : Prop extends Consistent h where
  /-- The entries are those that the classes show. -/
  overridden_iff : ∀ name method base,
    base ∈ h.overriddenAt name method ↔ (name, base, method) ∈ h.overrideList
  /-- A method is noted only with a base. -/
  overridden_ne_nil : h.Every fun c => ∀ m, c.overridden.get? m ≠ some []

theorem overrideList_enterAll (hh : h.Consistent) (entries : List (String × String × String))
    (entry : String × String × String) :
    entry ∈ (h.enterAll entries).overrideList ↔ entry ∈ h.overrideList := by
  obtain ⟨name, base, method⟩ := entry
  have hsame := (hh.reads_self.enterAll entries).same
  rw [mem_overrideList_iff, mem_overrideList_iff,
    hsame.related_eq (·.bases) (fun _ => rfl), hsame.related_eq (·.virtuals) (fun _ => rfl),
    hsame.matchesBase_eq]

theorem Unresolved.mem_overriddenAt_iff (hh : h.Unresolved) (name method base : String) :
    base ∈ (h.enterAll h.overrideList).overriddenAt name method ↔
      (name, base, method) ∈ h.overrideList := by
  have hknown : ∀ entry ∈ h.overrideList, h.Knows entry.1 := by
    rintro ⟨name, base, method⟩ hentry
    obtain ⟨hbase, _⟩ := (mem_overrideList_iff _ _ _ _).1 hentry
    obtain ⟨c, hc, _⟩ := (mem_related_iff _ _ _ _).1 hbase
    exact ⟨c, hc⟩
  have hnone : base ∉ h.overriddenAt name method := by
    intro hmem
    cases hc : h.getClass? name with
    | none => simp [overriddenAt, hc] at hmem
    | some c => simp [overriddenAt, hc, hh.overrides_none name c hc] at hmem
  rw [mem_overriddenAt_enterAll _ _ hknown]
  simp [hnone]

theorem ofAst_resolved (a : Ast) : ∃ h, ofAst a = .ok h ∧ h.Resolved := by
  have hwalk := unresolved_noteTree a
  generalize hnoted : noteTree a {} = h at hwalk
  have hh := hwalk.toConsistent
  refine ⟨h.enterAll h.overrideList, ?_, ?_, ?_, ?_⟩
  · rw [ofAst, hnoted]
    exact resolve_eq_enterAll hh
  · exact (hh.reads_self.enterAll h.overrideList).consistent
  · intro name method base
    rw [hwalk.mem_overriddenAt_iff, overrideList_enterAll hh]
  · apply every_overridden_enterAll
    intro name c hc m
    simp [hwalk.overrides_none name c hc]

theorem Resolved.resolve_eq_self (hh : h.Resolved) : resolve h = .ok h := by
  rw [resolve_eq_enterAll hh.toConsistent]
  congr 1
  apply enterAll_eq_self hh.toConsistent
  rintro ⟨name, base, method⟩ hentry
  exact (hh.overridden_iff name method base).2 hentry

/-- The hierarchy of any tree: the two directions of inheritance agree, the records of a class
agree with each other, the overridden methods are exactly those of a base with as many parameters,
and resolving them again changes nothing. -/
theorem ofAst_relations_agree (a : Ast) :
    ∃ h, ofAst a = .ok h ∧
      (∀ name c, h.getClass? name = some c →
        (∀ other, other ∈ c.bases ∨ other ∈ c.derived → h.Knows other) ∧
        (∀ base d, h.getClass? base = some d → (base ∈ c.bases ↔ name ∈ d.derived)) ∧
        (∃ access, c.baseAccess = .obj access ∧ ∀ b, b ∈ Dict.keys access ↔ b ∈ c.bases) ∧
        (∃ signatures, c.signatures = .obj signatures ∧
          ∀ m, m ∈ Dict.keys signatures ↔ m ∈ c.virtuals) ∧
        (∀ m ∈ c.pureVirtuals, m ∈ c.virtuals) ∧
        (∀ m base, base ∈ (c.overridden.get? m).getD [] ↔
          base ∈ c.bases ∧ m ∈ c.virtuals ∧
            ∃ d, h.getClass? base = some d ∧ m ∈ d.virtuals ∧
              ∃ s t, c.paramTypes? m = some s ∧ d.paramTypes? m = some t ∧
                s.length = t.length) ∧
        (∀ m, c.overridden.get? m ≠ some [])) ∧
      resolve h = .ok h := by
  obtain ⟨h, hofAst, hh⟩ := ofAst_resolved a
  refine ⟨h, hofAst, ?_, hh.resolve_eq_self⟩
  intro name c hc
  have hwell := hh.wellFormed name c hc
  have hbases : ∀ base, base ∈ h.related (·.bases) name ↔ base ∈ c.bases := fun base => by
    rw [related_of_getClass? hc]
  refine ⟨?_, ?_, hwell.access, hwell.signed, hwell.pure_virtual, ?_,
    hh.overridden_ne_nil name c hc⟩
  · rintro other (hbase | hderived)
    · exact hh.base_known name other ((hbases other).2 hbase)
    · have hback : name ∈ h.related (·.bases) other := by
        rw [hh.base_iff_derived, related_of_getClass? hc]
        exact hderived
      obtain ⟨d, hd, _⟩ := (mem_related_iff _ _ _ _).1 hback
      exact ⟨d, hd⟩
  · intro base d hd
    rw [← hbases, hh.base_iff_derived, related_of_getClass? hd]
  · intro m base
    rw [← overriddenAt_of_getClass? hc, hh.overridden_iff, hh.toConsistent.mem_overrideList_iff hc]
    simp only [ClassNode.sameArity_iff]

end ClassHierarchy

end CodeAtlas

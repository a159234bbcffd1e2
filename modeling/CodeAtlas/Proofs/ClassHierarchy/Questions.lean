import CodeAtlas.Proofs.ClassHierarchy.VirtualTable

/-!
# Questions about virtual tables

What one question about a class does to the tables kept, for any hierarchy, also
one with cycles. A table that is kept or open is not written (`get?_tableFrom`).
What tables list is handed down from bases, so that no wrong class is listed
(`tableFrom_within`). After a first question all classes above have their tables
kept (`has_virtualTable`).
-/

namespace CodeAtlas.ClassHierarchy

open Relation List Dict

variable {ask : String → TableCache → VirtualTable × TableCache} {base t : VirtualTable}
  {bases : List String} {P : String → String → Prop} {b name m : String} {cache : TableCache}
  {h : ClassHierarchy} {visited : List String} {c : String}

/-! ### One question -/

theorem askBases_induction {P : VirtualTable × TableCache → Prop}
    {start : VirtualTable × TableCache} (hstart : P start)
    (hstep : ∀ s, P s → ∀ b ∈ bases, P (mergeTable s.1 (ask b s.2).1, (ask b s.2).2)) :
    P (askBases ask bases start) :=
  foldlRecOn bases _ hstart hstep

theorem get?_tableFrom (h : ClassHierarchy) (fuel : Nat) (visited : List String) (name : String)
    (cache : TableCache) (k : String) :
    (h.tableFrom fuel visited name cache).2.get? k = cache.get? k ∨
      cache.get? k = none ∧ k ∉ visited := by
  induction fuel generalizing visited name cache with
  | zero => exact .inl rfl
  | succ fuel ih =>
    rcases h.tableFrom_cases fuel visited name cache with
      ⟨t, _, heq⟩ | ⟨_, _, heq⟩ | ⟨c, s, hnew, hclosed, _, hs, heq⟩
    · exact .inl (by rw [heq])
    · exact .inl (by rw [heq])
    · have hbases : s.2.get? k = cache.get? k ∨ cache.get? k = none ∧ k ∉ visited := by
        rw [← hs]
        refine askBases_induction (.inl rfl)
          (P := fun s => s.2.get? k = cache.get? k ∨ cache.get? k = none ∧ k ∉ visited) ?_
        rintro s (hold | hwritten) b _
        · rcases ih (name :: visited) b s.2 with hsame | ⟨hnone, hk⟩
          · exact .inl (hsame.trans hold)
          · exact .inr ⟨hold ▸ hnone, fun hmem => hk (mem_cons_of_mem _ hmem)⟩
        · exact .inr hwritten
      rw [heq, get?_set]
      by_cases hk : k = name
      · subst hk
        exact .inr ⟨hnew, hclosed⟩
      · rwa [if_neg hk]

theorem has_tableFrom {k : String} (hk : cache.has k = true) (fuel : Nat) (visited : List String)
    (name : String) : (h.tableFrom fuel visited name cache).2.has k = true := by
  rcases h.get?_tableFrom fuel visited name cache k with hsame | ⟨hnone, _⟩
  · rwa [Dict.has, hsame]
  · rw [Dict.has, hnone] at hk
    cases hk

theorem tableFrom_of_kept (h : ClassHierarchy) (fuel : Nat) (visited : List String)
    (ht : cache.get? name = some t) : h.tableFrom (fuel + 1) visited name cache = (t, cache) := by
  simp [tableFrom, ht]

theorem tableFrom_of_unknown (fuel : Nat) (visited : List String)
    (hunknown : h.getClass? name = none) (hnew : cache.get? name = none) :
    h.tableFrom fuel visited name cache = ([], cache) := by
  cases fuel <;> simp [tableFrom, hnew, hunknown]

theorem tableFrom_of_open (h : ClassHierarchy) (fuel : Nat) (hopen : name ∈ visited)
    (hnew : cache.get? name = none) : h.tableFrom fuel visited name cache = ([], cache) := by
  cases fuel with
  | zero => rfl
  | succ fuel =>
    rcases h.tableFrom_cases fuel visited name cache with
      ⟨t, ht, _⟩ | ⟨_, _, heq⟩ | ⟨c, s, _, hclosed, _⟩
    · rw [hnew] at ht
      cases ht
    · exact heq
    · exact (hclosed hopen).elim

/-! ### What a table can list -/

/-- No method has two entries, and all classes listed are related to their method. -/
structure Within (t : VirtualTable) (P : String → String → Prop) : Prop where
  distinct : t.keys.Nodup
  related : ∀ m d, d ∈ (t.get? m).getD [] → P m d

theorem within_nil (P : String → String → Prop) : Within [] P := ⟨nodup_nil, by simp⟩

theorem Within.mono {Q : String → String → Prop} (ht : Within t P) (hPQ : ∀ m d, P m d → Q m d) :
    Within t Q :=
  ⟨ht.distinct, fun m d hd => hPQ m d (ht.related m d hd)⟩

theorem mem_mergeTable (hbase : base.keys.Nodup) (t : VirtualTable) (m d : String) :
    d ∈ ((mergeTable t base).get? m).getD [] ↔
      d ∈ (t.get? m).getD [] ∨ d ∈ (base.get? m).getD [] := by
  rw [get?_mergeTable t base hbase]
  cases base.get? m <;> cases t.get? m <;> simp [mem_addAllNew]

theorem Within.merge (ht : Within t P) (hbase : Within base P) : Within (mergeTable t base) P where
  distinct := nodup_keys_mergeTable ht.distinct base
  related m d hd := by
    rcases (mem_mergeTable hbase.distinct t m d).1 hd with hold | hnew
    · exact ht.related m d hold
    · exact hbase.related m d hnew

theorem get?_enterMethod_of_ne (c : ClassNode) (t : VirtualTable) {method : String}
    (hne : m ≠ method) : (enterMethod c t method).get? m = t.get? m := by
  unfold enterMethod
  split
  · rfl
  · rw [get?_set, if_neg hne]

theorem mem_enterOwn {c : ClassNode} {d : String} (hd : d ∈ ((enterOwn c name t).get? m).getD []) :
    m ∈ c.virtuals ∧ d = name ∨ m ∉ c.virtuals ∧ d ∈ (t.get? m).getD [] := by
  unfold enterOwn at hd
  generalize c.virtuals = methods at hd ⊢
  induction methods generalizing t with
  | nil => exact .inr ⟨not_mem_nil, hd⟩
  | cons method rest ih =>
    rcases ih hd with ⟨hm, hd⟩ | ⟨hm, hd⟩
    · exact .inl ⟨mem_cons_of_mem _ hm, hd⟩
    · by_cases hmethod : m = method
      · -- the last entry for the method was made here
        subst hmethod
        refine .inl ⟨mem_cons_self .., ?_⟩
        unfold enterMethod at hd
        split_ifs at hd with hskip
        · have hnone : t.has m = false := by
            rw [Bool.and_eq_true, Bool.not_eq_true'] at hskip
            exact hskip.2
          simp [(has_eq_false_iff t m).1 hnone] at hd
        · simpa [get?_set] using hd
      · rw [get?_enterMethod_of_ne _ _ hmethod] at hd
        exact .inr ⟨by simp [hmethod, hm], hd⟩

theorem Within.merge_answers {P : String → String → String → Prop} {Q : String → String → Prop}
    {answers : List VirtualTable} (hanswers : Forall₂ (fun b t => Within t (P b)) bases answers)
    (hPQ : ∀ b ∈ bases, ∀ m d, P b m d → Q m d) (ht : Within t Q) :
    Within (answers.foldl mergeTable t) Q := by
  induction hanswers generalizing t with
  | nil => exact ht
  | cons hanswer _ ih =>
    exact ih (fun b hb => hPQ b (mem_cons_of_mem _ hb))
      (ht.merge (hanswer.mono (hPQ _ (mem_cons_self ..))))

def CacheWithin (cache : TableCache) (P : String → String → String → Prop) : Prop :=
  Keeps (fun c t => Within t (P c)) cache

/-- A relation that holds of the methods of a class itself, and is handed down from bases, holds of
all that tables list. The classes in `blocked` are open throughout and need not comply. -/
theorem tableFrom_within {P : String → String → String → Prop} (blocked : List String)
    (hhere : ∀ c m, c ∉ blocked → m ∈ h.related (·.virtuals) c → P c m c)
    (habove : ∀ c b m d, c ∉ blocked → m ∉ h.related (·.virtuals) c → h.IsBase c b →
      P b m d → P c m d)
    (fuel : Nat) (hblocked : blocked ⊆ visited) (hcache : CacheWithin cache P) (name : String) :
    Within (h.tableFrom fuel visited name cache).1 (P name) ∧
      CacheWithin (h.tableFrom fuel visited name cache).2 P := by
  refine tableFrom_keeps (R := fun c t => Within t (P c))
    (I := fun _ visited _ => blocked ⊆ visited)
    (fun _ _ _ _ _ => within_nil _)
    (fun _ _ name _ hblocked _ _ => subset_cons_of_subset name hblocked) ?_ hblocked hcache
  intro fuel visited name c answers hblocked hclosed hc hanswers
  have hfree : name ∉ blocked := fun hmem => hclosed (hblocked hmem)
  have hbases : Within (answers.foldl mergeTable [])
      (fun m d => ∃ b, h.IsBase name b ∧ P b m d) :=
    Within.merge_answers hanswers (fun b hb m d hd => ⟨b, isBase_of_mem_filter hc hb, hd⟩)
      (within_nil _)
  refine ⟨nodup_keys_enterMethods _ _ hbases.distinct, fun m d hd => ?_⟩
  rcases mem_enterOwn hd with ⟨hm, rfl⟩ | ⟨hm, hd⟩
  · exact hhere d m hfree (by rwa [related_of_getClass? hc])
  · obtain ⟨b, hb, hd⟩ := hbases.related m d hd
    exact habove name b m d hfree (by rwa [related_of_getClass? hc]) hb hd

theorem implements_of_mem_virtualTable (queries : List String) {d : String}
    (hd : d ∈ ((h.virtualTable c (h.tablesAfter queries)).1.get? m).getD []) :
    h.Implements m c d := by
  have hask : ∀ cache, CacheWithin cache (fun c m d => h.Implements m c d) → ∀ name,
      Within (h.virtualTable name cache).1 (fun m d => h.Implements m name d) ∧
        CacheWithin (h.virtualTable name cache).2 (fun c m d => h.Implements m c d) :=
    fun cache hcache name => tableFrom_within [] (fun _ _ _ hm => .here hm)
      (fun _ _ _ _ _ hm hb hd => .above hm hb hd) _ (nil_subset _) hcache name
  have hkept : CacheWithin (h.tablesAfter queries) (fun c m d => h.Implements m c d) :=
    foldlRecOn queries _ (keeps_nil _)
      (motive := fun cache => CacheWithin cache (fun c m d => h.Implements m c d))
      fun cache hcache name _ => (hask cache hcache name).2
  exact (hask _ hkept c).1.related m d hd

/-! ### Which tables are kept -/

theorem askBases_forall {P : TableCache → Prop} {Q : String → TableCache → Prop}
    (hask : ∀ b ∈ bases, ∀ cache, P cache → P (ask b cache).2 ∧ Q b (ask b cache).2)
    (hkeep : ∀ b b' cache, Q b cache → Q b (ask b' cache).2) (start : VirtualTable × TableCache)
    (hstart : P start.2) :
    P (askBases ask bases start).2 ∧ ∀ b ∈ bases, Q b (askBases ask bases start).2 := by
  induction bases generalizing start with
  | nil => exact ⟨hstart, by simp⟩
  | cons b rest ih =>
    have hcons : askBases ask (b :: rest) start =
        askBases ask rest (mergeTable start.1 (ask b start.2).1, (ask b start.2).2) := rfl
    obtain ⟨hP, hQ⟩ := hask b (mem_cons_self ..) start.2 hstart
    obtain ⟨hP', hQ'⟩ := ih (fun b' hb' => hask b' (mem_cons_of_mem b hb'))
      (mergeTable start.1 (ask b start.2).1, (ask b start.2).2) hP
    rw [hcons]
    refine ⟨hP', fun b' hb' => ?_⟩
    rcases mem_cons.1 hb' with rfl | hb'
    · exact askBases_induction (P := fun s => Q b' s.2) hQ fun s hs b _ => hkeep b' b s.2 hs
    · exact hQ' b' hb'

def KeptUpwards (h : ClassHierarchy) (visited : List String) (cache : TableCache) : Prop :=
  ∀ c b, cache.has c = true → h.IsBase c b → h.Knows b → cache.has b = true ∨ b ∈ visited

theorem tableFrom_keptUpwards (fuel : Nat) (hopen : h.OpenBelow visited name)
    (hfuel : h.classes.length < fuel + visited.length) (hname : h.Knows name)
    (hcache : h.KeptUpwards visited cache) :
    h.KeptUpwards visited (h.tableFrom fuel visited name cache).2 ∧
      ((h.tableFrom fuel visited name cache).2.has name = true ∨ name ∈ visited) := by
  induction fuel generalizing visited name cache with
  | zero =>
    have hlength := hopen.length_le
    omega
  | succ fuel ih =>
    rcases h.tableFrom_cases fuel visited name cache with
      ⟨t, ht, heq⟩ | ⟨_, hnone, heq⟩ | ⟨c, s, _, hclosed, hc, hs, heq⟩
    · rw [heq]
      exact ⟨hcache, .inl ((has_iff _ _).2 ⟨t, ht⟩)⟩
    · rw [heq]
      refine ⟨hcache, .inr ?_⟩
      rcases hnone with hmem | hunknown
      · exact hmem
      · obtain ⟨c, hc⟩ := hname
        rw [hunknown] at hc
        cases hc
    · have hstart : h.KeptUpwards (name :: visited) cache := fun c b hhas hb hknown =>
        (hcache c b hhas hb hknown).imp_right (mem_cons_of_mem name)
      have hask : ∀ b ∈ c.bases.filter h.classes.has, ∀ cache,
          h.KeptUpwards (name :: visited) cache →
          h.KeptUpwards (name :: visited) (h.tableFrom fuel (name :: visited) b cache).2 ∧
            ((h.tableFrom fuel (name :: visited) b cache).2.has b = true ∨
              b ∈ name :: visited) := by
        intro b hb cache hcache
        exact ih (hopen.cons hclosed ⟨c, hc⟩ (isBase_of_mem_filter hc hb))
          (by rw [length_cons]; omega) ((has_iff _ _).1 (mem_filter.1 hb).2) hcache
      obtain ⟨hupwards, hbases⟩ := askBases_forall
        (Q := fun b cache => cache.has b = true ∨ b ∈ name :: visited) hask
        (fun b b' cache hb => hb.imp_left fun hhas => has_tableFrom hhas _ _ _)
        ([], cache) hstart
      rw [hs] at hupwards hbases
      rw [heq]
      refine ⟨fun c' b hhas hb hknown => ?_, .inl ((has_set _ _ _ _).2 (.inl rfl))⟩
      have hkept : s.2.has b = true ∨ b ∈ name :: visited := by
        rcases (has_set _ _ _ _).1 hhas with rfl | hhas
        · unfold IsBase at hb
          rw [related_of_getClass? hc] at hb
          exact hbases b (mem_filter.2 ⟨hb, (has_iff _ _).2 hknown⟩)
        · exact hupwards c' b hhas hb hknown
      rw [has_set]
      rcases hkept with hhas | hmem
      · exact .inl (.inr hhas)
      · rcases mem_cons.1 hmem with rfl | hmem
        · exact .inl (.inl rfl)
        · exact .inr hmem

theorem has_virtualTable (hpath : ReflTransGen h.IsBase c b) (hb : h.Knows b) :
    (h.virtualTable c []).2.has b = true := by
  have hkept : ∀ name, h.Knows name → h.KeptUpwards [] (h.virtualTable name []).2 ∧
      ((h.virtualTable name []).2.has name = true ∨ name ∈ ([] : List String)) := fun name hname =>
    tableFrom_keptUpwards _ (h.openBelow_nil name) (by simp) hname fun _ _ hhas => by cases hhas
  induction hpath with
  | refl => simpa using (hkept c hb).2
  | tail hpath hstep ih =>
    have hc : h.Knows c := by
      rcases ReflTransGen.cases_head hpath with rfl | ⟨_, hfirst, _⟩
      · exact hstep.knows
      · exact hfirst.knows
    simpa using (hkept c hc).1 _ _ (ih hstep.knows) hstep hb

end CodeAtlas.ClassHierarchy

import CodeAtlas.ClassHierarchy.VirtualTable
import CodeAtlas.Proofs.ClassHierarchy.Overrides

/-!
# What a virtual method table says

`h.Implements m c d` says that going up from `c` along some path of base classes
the first class with the virtual method `m` is `d`. Over a resolved hierarchy
without cycles the table of `c` shows exactly this relation, whatever tables are
kept from earlier questions.

A table is specified by the relation that it shows (`VirtualTable.Shows`), so
merging is a disjunction (`Shows.merge`) and the methods of a class come last
(`get?_enterMethods`). `tableFrom_keeps` is the induction on the bound of the
depth, for whatever a class hands on from the tables of its bases to its own. Here
it is used with the invariant that all open classes lie below the class in
question: without cycles no class is met while it is open, and the open classes,
being distinct, never use up the bound.
-/

namespace CodeAtlas

open List Dict

variable {visited : List String} {t : VirtualTable} {P Q : String → String → Prop}
  {name c : String} {cache : TableCache}

/-- The table lists, without repetition, the classes related to a method, and has no entry for a
method that is related to no class. -/
structure VirtualTable.Shows (t : VirtualTable) (P : String → String → Prop) : Prop where
  distinct : t.keys.Nodup
  nodup : ∀ m, ((t.get? m).getD []).Nodup
  /-- The classes listed are those related to the method. -/
  mem_iff : ∀ m d, d ∈ (t.get? m).getD [] ↔ P m d
  ne_nil : ∀ m, t.get? m ≠ some []

namespace VirtualTable

theorem shows_nil : Shows [] fun _ _ => False where
  distinct := nodup_nil
  nodup := by simp
  mem_iff := by simp
  ne_nil := by simp

theorem Shows.get?_eq_none_iff (ht : t.Shows P) (m : String) : t.get? m = none ↔ ∀ d, ¬ P m d := by
  simp only [← ht.mem_iff]
  cases hget : t.get? m with
  | none => simp
  | some l =>
    have hne : l ≠ [] := fun hnil => ht.ne_nil m (hnil ▸ hget)
    obtain ⟨d, hd⟩ := exists_mem_of_ne_nil l hne
    simp only [reduceCtorEq, Option.getD_some, false_iff, not_forall, not_not]
    exact ⟨d, hd⟩

theorem Shows.congr (ht : t.Shows P) (hPQ : ∀ m d, P m d ↔ Q m d) : t.Shows Q := by
  have heq : P = Q := funext fun m => funext fun d => propext (hPQ m d)
  rwa [← heq]

end VirtualTable

namespace ClassHierarchy

theorem get?_mergeTable (t base : VirtualTable) (hbase : base.keys.Nodup) (m : String) :
    (mergeTable t base).get? m =
      match base.get? m with
      | none => t.get? m
      | some l => some (((t.get? m).map (addAllNew · l)).getD l) := by
  induction base generalizing t with
  | nil => rfl
  | cons entry rest ih =>
    obtain ⟨k, l⟩ := entry
    rw [Dict.keys_cons, nodup_cons] at hbase
    have hwrite : mergeTable t ((k, l) :: rest) =
        mergeTable (Dict.set t k (((t.get? k).map (addAllNew · l)).getD l)) rest := by
      unfold mergeTable
      rw [foldl_cons]
      cases hget : t.get? k <;> simp [hget]
    rw [hwrite, ih _ hbase.2, get?_cons, get?_set]
    by_cases hm : m = k
    · subst hm
      have hnone : Dict.get? rest m = none := by
        cases hget : Dict.get? rest m with
        | none => rfl
        | some l' => exact (hbase.1 (mem_keys_of_get? hget)).elim
      simp [hnone]
    · simp [hm]

theorem nodup_keys_mergeTable (ht : t.keys.Nodup) (base : VirtualTable) :
    (mergeTable t base).keys.Nodup := by
  refine foldlRecOn base _ ht (motive := fun t => (Dict.keys t).Nodup) ?_
  rintro t ht ⟨k, l⟩ _
  dsimp only
  split <;> exact nodup_keys_set ht _ _

end ClassHierarchy

theorem VirtualTable.Shows.merge {base : VirtualTable} (ht : t.Shows P) (hbase : base.Shows Q) :
    VirtualTable.Shows (ClassHierarchy.mergeTable t base) fun m d => P m d ∨ Q m d := by
  have hget := ClassHierarchy.get?_mergeTable t base hbase.distinct
  refine ⟨ClassHierarchy.nodup_keys_mergeTable ht.distinct base, ?_, ?_, ?_⟩
  · intro m
    have hnodup := ht.nodup m
    have hnodup' := hbase.nodup m
    rw [hget]
    cases hb : base.get? m with
    | none => simpa using hnodup
    | some l =>
      rw [hb] at hnodup'
      cases ho : t.get? m with
      | none => simpa using hnodup'
      | some l₀ =>
        rw [ho] at hnodup
        simpa using nodup_addAllNew hnodup l
  · intro m d
    rw [← ht.mem_iff, ← hbase.mem_iff, hget]
    cases base.get? m <;> cases t.get? m <;> simp [mem_addAllNew]
  · intro m hnil
    have hold := ht.ne_nil m
    have hnew := hbase.ne_nil m
    rw [hget] at hnil
    cases hb : base.get? m with
    | none => exact hold (by simpa [hb] using hnil)
    | some l =>
      obtain ⟨d, hd⟩ := exists_mem_of_ne_nil l fun h => hnew (h ▸ hb)
      have hmem : d ∈ ((t.get? m).map (addAllNew · l)).getD l := by
        cases t.get? m with
        | none => exact hd
        | some l₀ => exact mem_addAllNew.2 (.inr hd)
      have hempty : ((t.get? m).map (addAllNew · l)).getD l = [] := by simpa [hb] using hnil
      rw [hempty] at hmem
      exact not_mem_nil hmem

namespace ClassHierarchy

variable {h : ClassHierarchy}

/-- A class is a direct base of another one. -/
def IsBase (h : ClassHierarchy) (c b : String) : Prop := b ∈ h.related (·.bases) c

/-- No class is its own base, directly or through others. -/
def Acyclic (h : ClassHierarchy) : Prop := ∀ c, ¬ Relation.TransGen h.IsBase c c

/-- Going up from a class, some path of bases meets the method first in the other class. -/
inductive Implements (h : ClassHierarchy) (m : String) : String → String → Prop where
  | here {c : String} (hm : m ∈ h.related (·.virtuals) c) : Implements h m c c
  /-- The class does not have the method, and a base leads to it. -/
  | above {c b d : String} (hm : m ∉ h.related (·.virtuals) c) (hb : h.IsBase c b)
      (hd : Implements h m b d) : Implements h m c d

theorem implements_iff_of_mem {m : String} (hm : m ∈ h.related (·.virtuals) c) (d : String) :
    h.Implements m c d ↔ d = c := by
  constructor
  · intro himp
    cases himp with
    | here _ => rfl
    | above hm' _ _ => exact (hm' hm).elim
  · rintro rfl
    exact .here hm

theorem implements_iff_of_not_mem {m : String} (hm : m ∉ h.related (·.virtuals) c) (d : String) :
    h.Implements m c d ↔ ∃ b, h.IsBase c b ∧ h.Implements m b d := by
  constructor
  · intro himp
    cases himp with
    | here hm' => exact (hm hm').elim
    | above _ hb hd => exact ⟨_, hb, hd⟩
  · rintro ⟨b, hb, hd⟩
    exact .above hm hb hd

/-- The methods of a class come last. An overriding method is entered only if a base has it, which
is asked for here. -/
theorem get?_enterMethods (c : ClassNode) (methods : List String) (t : VirtualTable)
    (hthere : ∀ m ∈ methods, overrides c m = true → t.has m = true) (m : String) :
    Dict.get? (methods.foldl (enterMethod c) t) m =
      if m ∈ methods then some [c.name] else t.get? m := by
  induction methods generalizing t with
  | nil => rfl
  | cons method rest ih =>
    have henter : enterMethod c t method = Dict.set t method [c.name] := by
      unfold enterMethod
      by_cases hover : overrides c method = true
      · simp [hthere method (mem_cons_self ..) hover]
      · simp [hover]
    have hrest : ∀ m ∈ rest, overrides c m = true → (Dict.set t method [c.name]).has m = true := by
      intro m hm hover
      obtain ⟨l, hl⟩ := (has_iff _ _).1 (hthere m (mem_cons_of_mem method hm) hover)
      rw [has_iff, get?_set]
      by_cases hmethod : m = method
      · exact ⟨[c.name], if_pos hmethod⟩
      · exact ⟨l, by rw [if_neg hmethod, hl]⟩
    rw [foldl_cons, henter, ih _ hrest, get?_set]
    by_cases hmem : m ∈ rest
    · simp [hmem]
    · by_cases hmethod : m = method <;> simp [hmem, hmethod]

theorem nodup_keys_enterMethods (c : ClassNode) (methods : List String) (ht : t.keys.Nodup) :
    (Dict.keys (methods.foldl (enterMethod c) t)).Nodup := by
  refine foldlRecOn methods _ ht (motive := fun t => (Dict.keys t).Nodup) ?_
  intro t ht method _
  unfold enterMethod
  split
  · exact ht
  · exact nodup_keys_set ht _ _

/-! ### One question -/

def askBases (ask : String → TableCache → VirtualTable × TableCache) (bases : List String)
    (start : VirtualTable × TableCache) : VirtualTable × TableCache :=
  bases.foldl (fun s b => (mergeTable s.1 (ask b s.2).1, (ask b s.2).2)) start

theorem exists_answers (ask : String → TableCache → VirtualTable × TableCache)
    {bases : List String} {K : TableCache → Prop} {R : String → VirtualTable → Prop}
    (hask : ∀ b ∈ bases, ∀ cache, K cache → R b (ask b cache).1 ∧ K (ask b cache).2)
    (t : VirtualTable) (hcache : K cache) :
    K (askBases ask bases (t, cache)).2 ∧ ∃ answers, Forall₂ R bases answers ∧
      (askBases ask bases (t, cache)).1 = answers.foldl mergeTable t := by
  induction bases generalizing t cache with
  | nil => exact ⟨hcache, [], .nil, rfl⟩
  | cons b rest ih =>
    obtain ⟨hanswer, hkept⟩ := hask b (mem_cons_self ..) cache hcache
    obtain ⟨hkept', answers, hanswers, heq⟩ := ih (fun b' hb' => hask b' (mem_cons_of_mem b hb'))
      (mergeTable t (ask b cache).1) hkept
    exact ⟨hkept', _ :: answers, .cons hanswer hanswers, heq⟩

def enterOwn (c : ClassNode) (name : String) (t : VirtualTable) : VirtualTable :=
  c.virtuals.foldl (enterMethod { c with name }) t

/-- A table is kept already, or there is none to compute, or it is computed from those of the
bases. -/
theorem tableFrom_cases (h : ClassHierarchy) (fuel : Nat) (visited : List String) (name : String)
    (cache : TableCache) :
    (∃ t, cache.get? name = some t ∧ h.tableFrom (fuel + 1) visited name cache = (t, cache)) ∨
      (cache.get? name = none ∧ (name ∈ visited ∨ h.getClass? name = none) ∧
        h.tableFrom (fuel + 1) visited name cache = ([], cache)) ∨
      ∃ c s, cache.get? name = none ∧ name ∉ visited ∧ h.getClass? name = some c ∧
        askBases (h.tableFrom fuel (name :: visited)) (c.bases.filter h.classes.has) ([], cache) =
          s ∧
        h.tableFrom (fuel + 1) visited name cache =
          (enterOwn c name s.1, Dict.set s.2 name (enterOwn c name s.1)) := by
  rw [tableFrom]
  cases hkept : cache.get? name with
  | some t => exact .inl ⟨t, rfl, rfl⟩
  | none =>
    by_cases hopen : name ∈ visited
    · exact .inr (.inl ⟨rfl, .inl hopen, by simp [hopen]⟩)
    · cases hc : h.getClass? name with
      | none => exact .inr (.inl ⟨rfl, .inr rfl, by simp⟩)
      | some c =>
        refine .inr (.inr ⟨c, _, rfl, hopen, rfl, rfl, ?_⟩)
        have hclosed : visited.contains name = false := by simpa using hopen
        simp only [hclosed, Bool.false_eq_true, if_false]
        rfl

theorem isBase_of_mem_filter {c : ClassNode} (hc : h.getClass? name = some c)
    (hb : b ∈ c.bases.filter h.classes.has) : h.IsBase name b := by
  unfold IsBase
  rw [related_of_getClass? hc]
  exact mem_of_mem_filter hb

theorem IsBase.knows (hb : h.IsBase c b) : h.Knows c := by
  obtain ⟨node, hnode, _⟩ := (mem_related_iff _ _ _ _).1 hb
  exact ⟨node, hnode⟩

/-- Every table kept is related to its class. -/
def Keeps (R : String → VirtualTable → Prop) (cache : TableCache) : Prop :=
  ∀ c t, cache.get? c = some t → R c t

theorem keeps_nil (R : String → VirtualTable → Prop) : Keeps R [] := by
  intro c t ht
  cases ht

theorem Keeps.set {R : String → VirtualTable → Prop} (hcache : Keeps R cache) (ht : R c t) :
    Keeps R (Dict.set cache c t) := by
  intro c' t' ht'
  rw [get?_set] at ht'
  split at ht'
  · next hc =>
      subst hc
      exact Option.some.inj ht' ▸ ht
  · exact hcache c' t' ht'

/-- What a class hands on from the tables of its bases to its own holds of every answer. `I` is
known of the bound and of the open classes at each question. -/
theorem tableFrom_keeps {R : String → VirtualTable → Prop} {I : Nat → List String → String → Prop}
    (hnone : ∀ fuel visited name, I fuel visited name →
      fuel = 0 ∨ name ∈ visited ∨ h.getClass? name = none → R name [])
    (hbase : ∀ fuel visited name b, I (fuel + 1) visited name → name ∉ visited →
      h.IsBase name b → I fuel (name :: visited) b)
    (hnew : ∀ fuel visited name c answers, I (fuel + 1) visited name → name ∉ visited →
      h.getClass? name = some c → Forall₂ R (c.bases.filter h.classes.has) answers →
      R name (enterOwn c name (answers.foldl mergeTable [])))
    {fuel : Nat} (hI : I fuel visited name) (hcache : Keeps R cache) :
    R name (h.tableFrom fuel visited name cache).1 ∧
      Keeps R (h.tableFrom fuel visited name cache).2 := by
  induction fuel generalizing visited name cache with
  | zero => exact ⟨hnone _ _ _ hI (.inl rfl), hcache⟩
  | succ fuel ih =>
    rcases h.tableFrom_cases fuel visited name cache with
      ⟨t, ht, heq⟩ | ⟨_, hmissing, heq⟩ | ⟨c, s, _, hclosed, hc, rfl, heq⟩ <;> rw [heq]
    · exact ⟨hcache name t ht, hcache⟩
    · exact ⟨hnone _ _ _ hI (.inr hmissing), hcache⟩
    · obtain ⟨hkept, answers, hanswers, htable⟩ :=
        exists_answers (h.tableFrom fuel (name :: visited)) (R := R) (fun b hb _ hcache =>
          ih (hbase _ _ _ b hI hclosed (isBase_of_mem_filter hc hb)) hcache) [] hcache
      have hown := hnew _ _ _ c answers hI hclosed hc hanswers
      rw [← htable] at hown
      exact ⟨hown, hkept.set hown⟩

/-! ### What the answers show -/

/-- The open classes are distinct classes below the one in question. -/
structure OpenBelow (h : ClassHierarchy) (visited : List String) (name : String) : Prop where
  nodup : visited.Nodup
  known : ∀ v ∈ visited, h.Knows v
  /-- Each open class derives from the one in question. -/
  below : ∀ v ∈ visited, Relation.TransGen h.IsBase v name

theorem OpenBelow.not_mem (hacyclic : h.Acyclic) (hopen : h.OpenBelow visited name) :
    name ∉ visited :=
  fun hmem => hacyclic name (hopen.below name hmem)

theorem OpenBelow.cons {base : String} (hopen : h.OpenBelow visited name)
    (hclosed : name ∉ visited) (hname : h.Knows name) (hbase : h.IsBase name base) :
    h.OpenBelow (name :: visited) base where
  nodup := nodup_cons.2 ⟨hclosed, hopen.nodup⟩
  known := by
    intro v hv
    rcases mem_cons.1 hv with rfl | hv
    · exact hname
    · exact hopen.known v hv
  below := by
    intro v hv
    rcases mem_cons.1 hv with rfl | hv
    · exact .single hbase
    · exact (hopen.below v hv).tail hbase

theorem OpenBelow.length_le (hopen : h.OpenBelow visited name) :
    visited.length ≤ h.classes.length := by
  have hsubset : visited ⊆ h.classes.keys := by
    intro v hv
    obtain ⟨c, hc⟩ := hopen.known v hv
    exact mem_keys_of_get? hc
  have hlength := List.Nodup.length_le_of_subset hopen.nodup hsubset
  simpa [Dict.keys] using hlength

theorem shows_merge_answers {bases : List String} {answers : List VirtualTable}
    (hanswers : Forall₂ (fun b t => VirtualTable.Shows t fun m d => h.Implements m b d)
      bases answers)
    (ht : t.Shows P) :
    VirtualTable.Shows (answers.foldl mergeTable t)
      fun m d => P m d ∨ ∃ b ∈ bases, h.Implements m b d := by
  induction hanswers generalizing P t with
  | nil => exact ht.congr (by simp)
  | cons hanswer _ ih => exact (ih (ht.merge hanswer)).congr (by simp [or_assoc])

theorem enterMethods_shows (hh : h.Resolved) {c : ClassNode} (hc : h.getClass? name = some c)
    (ht : t.Shows fun m d => ∃ b ∈ c.bases, h.Implements m b d) :
    VirtualTable.Shows (enterOwn c name t) fun m d => h.Implements m name d := by
  -- an overridden method is virtual in a base, so the tables of the bases have it
  have hthere : ∀ m ∈ c.virtuals, overrides { c with name } m = true → t.has m = true := by
    intro m _ hover
    obtain ⟨l, hl, hany⟩ : ∃ l, c.overridden.get? m = some l ∧ c.bases.any l.contains = true := by
      unfold overrides at hover
      split at hover
      · next l hl => exact ⟨l, hl, hover⟩
      · cases hover
    obtain ⟨b, hb, hbl⟩ := any_eq_true.1 hany
    have hmem : b ∈ h.overriddenAt name m := by
      rw [overriddenAt_of_getClass? hc, hl]
      simpa using hbl
    obtain ⟨_, hvirtual, _⟩ := (mem_overrideList_iff _ _ _ _).1 ((hh.overridden_iff _ _ _).1 hmem)
    rw [has_iff, ← Option.isSome_iff_exists, ← Option.ne_none_iff_isSome]
    intro hnone
    exact (ht.get?_eq_none_iff m).1 hnone b ⟨b, hb, .here hvirtual⟩
  have hget : ∀ m, Dict.get? (enterOwn c name t) m = _ :=
    get?_enterMethods { c with name } c.virtuals t hthere
  have hvirtuals : ∀ m, m ∈ h.related (·.virtuals) name ↔ m ∈ c.virtuals := fun m => by
    rw [related_of_getClass? hc]
  refine ⟨nodup_keys_enterMethods _ _ ht.distinct, ?_, ?_, ?_⟩
  · intro m
    rw [hget]
    split
    · simp
    · exact ht.nodup m
  · intro m d
    rw [hget]
    by_cases hm : m ∈ c.virtuals
    · rw [implements_iff_of_mem ((hvirtuals m).2 hm)]
      simp [hm]
    · rw [implements_iff_of_not_mem (fun h => hm ((hvirtuals m).1 h)), if_neg hm, ht.mem_iff]
      unfold IsBase
      rw [related_of_getClass? hc]
  · intro m
    rw [hget]
    split
    · simp
    · exact ht.ne_nil m

def CacheShows (h : ClassHierarchy) : TableCache → Prop :=
  Keeps fun c t => VirtualTable.Shows t fun m d => h.Implements m c d

theorem tableFrom_shows (hh : h.Resolved) (hacyclic : h.Acyclic) (fuel : Nat)
    (hopen : h.OpenBelow visited name) (hfuel : h.classes.length < fuel + visited.length)
    (hcache : h.CacheShows cache) :
    VirtualTable.Shows (h.tableFrom fuel visited name cache).1 (fun m d => h.Implements m name d) ∧
      h.CacheShows (h.tableFrom fuel visited name cache).2 := by
  refine tableFrom_keeps (R := fun c t => VirtualTable.Shows t fun m d => h.Implements m c d)
    (I := fun fuel visited name =>
      h.OpenBelow visited name ∧ h.classes.length < fuel + visited.length)
    ?_ ?_ ?_ ⟨hopen, hfuel⟩ hcache
  · rintro fuel visited name ⟨hopen, hfuel⟩ (rfl | hmem | hc)
    · have hlength := hopen.length_le
      omega
    · exact (hopen.not_mem hacyclic hmem).elim
    · refine VirtualTable.shows_nil.congr fun m d => (iff_false_intro fun himp => ?_).symm
      cases himp with
      | here hm => simp [related, hc] at hm
      | above _ hb _ => simp [IsBase, related, hc] at hb
  · rintro fuel visited name b ⟨hopen, hfuel⟩ hclosed hb
    exact ⟨hopen.cons hclosed hb.knows hb, by rw [length_cons]; omega⟩
  · rintro fuel visited name c answers _ _ hc hanswers
    have hbases : c.bases.filter h.classes.has = c.bases := filter_eq_self.2 fun b hb =>
      (has_iff _ _).2 (hh.base_known name b (by rwa [related_of_getClass? hc]))
    rw [hbases] at hanswers
    exact enterMethods_shows hh hc
      ((shows_merge_answers hanswers VirtualTable.shows_nil).congr (by simp))

/-- The tables kept after questions about some classes, one after the other. -/
def tablesAfter (h : ClassHierarchy) (queries : List String) : TableCache :=
  queries.foldl (fun cache name => (h.virtualTable name cache).2) []

theorem openBelow_nil (h : ClassHierarchy) (name : String) : h.OpenBelow [] name where
  nodup := nodup_nil
  known := by simp
  below := by simp

theorem virtualTable_shows (hh : h.Resolved) (hacyclic : h.Acyclic) (name : String)
    (hcache : h.CacheShows cache) :
    VirtualTable.Shows (h.virtualTable name cache).1 (fun m d => h.Implements m name d) ∧
      h.CacheShows (h.virtualTable name cache).2 :=
  tableFrom_shows hh hacyclic _ (h.openBelow_nil name) (by simp) hcache

theorem cacheShows_tablesAfter (hh : h.Resolved) (hacyclic : h.Acyclic) (queries : List String) :
    h.CacheShows (h.tablesAfter queries) :=
  foldlRecOn queries _ (keeps_nil _) (motive := h.CacheShows)
    fun _ hcache name _ => (virtualTable_shows hh hacyclic name hcache).2

/-- In the hierarchy of a tree without cycles, and after any questions, the table of a class lists
for each method, once each, the classes that going up from it meet the method first. A method is
missing exactly if there is none. -/
theorem virtualTable_get?_iff_implements (a : Ast) (h : ClassHierarchy) (hofAst : ofAst a = .ok h)
    (hacyclic : h.Acyclic) (queries : List String) (c m : String) :
    (∀ l, (h.virtualTable c (h.tablesAfter queries)).1.get? m = some l →
        l.Nodup ∧ ∀ d, d ∈ l ↔ h.Implements m c d) ∧
      ((h.virtualTable c (h.tablesAfter queries)).1.get? m = none ↔
        ¬ ∃ d, h.Implements m c d) := by
  obtain ⟨h', hofAst', hh⟩ := ofAst_resolved a
  have heq : h' = h := Except.ok.inj (hofAst'.symm.trans hofAst)
  subst heq
  obtain ⟨hshows, _⟩ :=
    virtualTable_shows hh hacyclic c (cacheShows_tablesAfter hh hacyclic queries)
  refine ⟨?_, ?_⟩
  · intro l hl
    have hnodup := hshows.nodup m
    have hmem := hshows.mem_iff m
    rw [hl] at hnodup hmem
    exact ⟨hnodup, hmem⟩
  · rw [hshows.get?_eq_none_iff, not_exists]

theorem acyclic_of_rank (rank : String → Nat)
    (hrank : ∀ entry ∈ h.classes, ∀ b ∈ entry.2.bases, rank b < rank entry.1) : h.Acyclic := by
  have hstep : ∀ c b, h.IsBase c b → rank b < rank c := by
    intro c b hb
    obtain ⟨node, hnode, hmem⟩ := (mem_related_iff _ _ _ _).1 hb
    exact hrank (c, node) (mem_of_get? hnode) b hmem
  have hpath : ∀ c b, Relation.TransGen h.IsBase c b → rank b < rank c := by
    intro c b hpath
    induction hpath with
    | single hb => exact hstep _ _ hb
    | tail _ hb ih => exact Nat.lt_trans (hstep _ _ hb) ih
  intro c hcycle
  exact Nat.lt_irrefl _ (hpath c c hcycle)

/-- A class with bases and virtual methods without parameters, as a tree. -/
def classTree (name : String) (bases methods : List String) : Ast :=
  .node { kind := .classDecl, name }
    (bases.map (fun b => .node { kind := .baseSpecifier, definition := some b } []) ++
      methods.map fun m => .node { kind := .method, name := m, isVirtual := true } [])

/-- A class with two bases that share one, of which only one overrides. -/
def sharedBaseTree : Ast :=
  .node { kind := .other "TRANSLATION_UNIT" }
    [classTree "Node" [] ["accept"], classTree "Named" ["Node"] ["accept"],
      classTree "Typed" ["Node"] [], classTree "Symbol" ["Named", "Typed"] []]

/-- The override on one of the two paths does not hide the method on the other one. -/
theorem virtualTable_sharedBase :
    ∃ h, ofAst sharedBaseTree = .ok h ∧ h.Acyclic ∧
      (h.virtualTable "Symbol" (h.tablesAfter ["Typed", "Symbol"])).1.get? "accept" =
        some ["Named", "Node"] ∧
      h.Implements "accept" "Symbol" "Named" ∧ h.Implements "accept" "Symbol" "Node" := by
  have hofAst : ofAst sharedBaseTree = .ok ((ofAst sharedBaseTree).toOption.getD {}) := by rfl
  have hacyclic : ((ofAst sharedBaseTree).toOption.getD {}).Acyclic :=
    acyclic_of_rank String.length (by decide)
  have htable : (((ofAst sharedBaseTree).toOption.getD {}).virtualTable "Symbol"
      (((ofAst sharedBaseTree).toOption.getD {}).tablesAfter ["Typed", "Symbol"])).1.get? "accept" =
        some ["Named", "Node"] := by decide
  obtain ⟨hlisted, _⟩ := virtualTable_get?_iff_implements sharedBaseTree _ hofAst hacyclic
    ["Typed", "Symbol"] "Symbol" "accept"
  obtain ⟨_, hmem⟩ := hlisted _ htable
  exact ⟨_, hofAst, hacyclic, htable, (hmem "Named").1 (by decide), (hmem "Node").1 (by decide)⟩

end ClassHierarchy

end CodeAtlas

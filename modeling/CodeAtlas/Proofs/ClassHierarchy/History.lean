import CodeAtlas.Proofs.ClassHierarchy.Questions
import Mathlib.Data.Finset.Card

/-!
# Tables and the questions asked before

Tables are kept by class, but the table of a class depends on what is open when
it is computed: an open class counts as one without methods. So a table that is
kept may be cut short, and whoever asks next is given the short one.

This needs two classes that are bases of each other. Above an untangled class
there are none, and its table does not depend on the questions before
(`answers_of_untangled`). A class that is its own base does no harm: it is met
only while it is open itself. The induction is on the number of classes above,
and `CacheFresh` is the invariant of the tables kept. Two classes that are bases
of each other are enough for a difference, if the methods are placed badly
(`exists_history`).
-/

namespace CodeAtlas.ClassHierarchy

open Relation List Dict

variable {d c b name : String} {visited : List String} {t : VirtualTable} {cache : TableCache}
  {h : ClassHierarchy} {m : String}

/-! ### Classes above which nothing is tangled -/

/-- From the class upwards, no two classes are bases of each other. -/
def Untangled (h : ClassHierarchy) (c : String) : Prop :=
  ∀ x y, ReflTransGen h.IsBase c x → TransGen h.IsBase x y → TransGen h.IsBase y x → x = y

theorem Untangled.above (hc : h.Untangled c) (hb : h.IsBase c b) : h.Untangled b :=
  fun x y hx => hc x y (.head hb hx)

theorem Untangled.eq_of_isBase (hc : h.Untangled c) (hb : h.IsBase c b)
    (hback : TransGen h.IsBase b c) : b = c :=
  (hc c b .refl (.single hb) hback).symm

open Classical in
noncomputable def height (h : ClassHierarchy) (c : String) : Nat :=
  (h.classes.keys.toFinset.filter (ReflTransGen h.IsBase c)).card

open Classical in
theorem Untangled.height_lt (hc : h.Untangled c) (hb : h.IsBase c b) (hne : b ≠ c) :
    h.height b < h.height c := by
  obtain ⟨node, hnode⟩ := hb.knows
  refine Finset.card_lt_card (Finset.ssubset_iff_subset_ne.2 ⟨?_, ?_⟩)
  · intro x hx
    rw [Finset.mem_filter] at hx ⊢
    exact ⟨hx.1, .head hb hx.2⟩
  · intro heq
    have hself : c ∈ h.classes.keys.toFinset.filter (ReflTransGen h.IsBase c) := by
      rw [Finset.mem_filter, mem_toFinset]
      exact ⟨mem_keys_of_get? hnode, .refl⟩
    rw [← heq, Finset.mem_filter] at hself
    rcases reflTransGen_iff_eq_or_transGen.1 hself.2 with hcb | hback
    · exact hne hcb.symm
    · exact hne (hc.eq_of_isBase hb hback)

def firstTable (h : ClassHierarchy) (c : String) : VirtualTable := (h.virtualTable c []).1

def CacheFresh (h : ClassHierarchy) : TableCache → Prop :=
  Keeps fun c t => h.Untangled c → t = h.firstTable c

def Answers (h : ClassHierarchy) (c : String) : Prop :=
  ∀ fuel visited cache, h.OpenBelow visited c → c ∉ visited →
    h.classes.length < fuel + visited.length → h.CacheFresh cache →
    (h.tableFrom fuel visited c cache).1 = h.firstTable c ∧
      h.CacheFresh (h.tableFrom fuel visited c cache).2

/-- The table of a class, if its bases answer as at a first question. -/
def tableOfBases (h : ClassHierarchy) (name : String) (c : ClassNode) : VirtualTable :=
  enterOwn c name ((c.bases.filter h.classes.has).foldl
    (fun t b => mergeTable t (if b = name then [] else h.firstTable b)) [])

theorem tableFrom_eq_tableOfBases {c : ClassNode} (hname : h.Untangled name)
    (hc : h.getClass? name = some c) (hbases : ∀ b, h.IsBase name b → b ≠ name → h.Answers b)
    (fuel : Nat) (hopen : h.OpenBelow visited name) (hclosed : name ∉ visited)
    (hfuel : h.classes.length < fuel + 1 + visited.length) (hcache : h.CacheFresh cache)
    (hnew : cache.get? name = none) :
    ∃ kept, h.CacheFresh kept ∧ h.tableFrom (fuel + 1) visited name cache =
      (h.tableOfBases name c, Dict.set kept name (h.tableOfBases name c)) := by
  have hask : ∀ b ∈ c.bases.filter h.classes.has, ∀ cache,
      h.CacheFresh cache ∧ cache.get? name = none →
      (h.tableFrom fuel (name :: visited) b cache).1 = (if b = name then [] else h.firstTable b) ∧
        h.CacheFresh (h.tableFrom fuel (name :: visited) b cache).2 ∧
          (h.tableFrom fuel (name :: visited) b cache).2.get? name = none := by
    rintro b hb cache ⟨hcache, hnew⟩
    have hbase := isBase_of_mem_filter hc hb
    by_cases hself : b = name
    · subst hself
      rw [tableFrom_of_open h fuel (mem_cons_self ..) hnew]
      exact ⟨(if_pos rfl).symm, hcache, hnew⟩
    · -- an open class that were above the name would be tangled with it
      have hclosed' : b ∉ name :: visited := by
        rw [mem_cons, not_or]
        exact ⟨hself, fun hmem => hself (hname.eq_of_isBase hbase (hopen.below b hmem))⟩
      obtain ⟨htable, hkept⟩ := hbases b hbase hself fuel (name :: visited) cache
        (hopen.cons hclosed ⟨c, hc⟩ hbase) hclosed' (by rw [length_cons]; omega) hcache
      refine ⟨by rw [htable, if_neg hself], hkept, ?_⟩
      rcases h.get?_tableFrom fuel (name :: visited) b cache name with hsame | ⟨_, hnot⟩
      · rw [hsame, hnew]
      · exact (hnot (mem_cons_self ..)).elim
  rcases h.tableFrom_cases fuel visited name cache with
    ⟨t, ht, _⟩ | ⟨_, hnone, _⟩ | ⟨c', s, _, _, hc', hs, heq⟩
  · rw [hnew] at ht
    cases ht
  · rcases hnone with hmem | hunknown
    · exact (hclosed hmem).elim
    · rw [hc] at hunknown
      cases hunknown
  · obtain rfl : c = c' := Option.some.inj (hc.symm.trans hc')
    obtain ⟨⟨hkept, _⟩, answers, hanswers, htable⟩ :=
      exists_answers _ (R := fun b t => t = if b = name then [] else h.firstTable b)
        (K := fun cache => h.CacheFresh cache ∧ cache.get? name = none) hask [] ⟨hcache, hnew⟩
    have hmap : answers = _ := (forall₂_eq_eq_eq ▸ forall₂_map_right_iff.2 hanswers.flip)
    rw [hs, hmap, foldl_map] at htable
    rw [hs] at hkept
    exact ⟨s.2, hkept, by rw [heq, htable]; rfl⟩

theorem answers_of_untangled (hname : h.Untangled name) : h.Answers name := by
  induction hheight : h.height name using Nat.strong_induction_on generalizing name with
  | _ n ih =>
    subst hheight
    intro fuel visited cache hopen hclosed hfuel hcache
    cases fuel with
    | zero =>
      have hlength := hopen.length_le
      omega
    | succ fuel =>
      cases hkept : cache.get? name with
      | some t =>
        rw [tableFrom_of_kept h fuel visited hkept]
        exact ⟨hcache name t hkept hname, hcache⟩
      | none =>
        cases hc : h.getClass? name with
        | none =>
          rw [tableFrom_of_unknown _ visited hc hkept, firstTable, virtualTable,
            tableFrom_of_unknown _ [] hc rfl]
          exact ⟨rfl, hcache⟩
        | some c =>
          have hbases : ∀ b, h.IsBase name b → b ≠ name → h.Answers b := fun b hb hne =>
            ih (h.height b) (hname.height_lt hb hne) (hname.above hb) rfl
          obtain ⟨first, _, hfirst⟩ := tableFrom_eq_tableOfBases hname hc hbases
            (h.classes.length + 1) (h.openBelow_nil name) (by simp) (by simp)
            (keeps_nil _) rfl
          obtain ⟨kept, hfresh, heq⟩ := tableFrom_eq_tableOfBases hname hc hbases fuel
            hopen hclosed hfuel hcache hkept
          have hsame : h.tableOfBases name c = h.firstTable name := by
            rw [firstTable, virtualTable, hfirst]
          rw [heq, hsame]
          exact ⟨rfl, hfresh.set fun _ => rfl⟩

/-- Every question keeps only first tables of untangled classes, also one about a class that is
tangled itself. -/
theorem cacheFresh_tableFrom (fuel : Nat) (hopen : h.OpenBelow visited name)
    (hfuel : h.classes.length < fuel + visited.length) (hcache : h.CacheFresh cache) :
    h.CacheFresh (h.tableFrom fuel visited name cache).2 := by
  induction fuel generalizing visited name cache with
  | zero => exact hcache
  | succ fuel ih =>
    rcases h.tableFrom_cases fuel visited name cache with
      ⟨t, _, heq⟩ | ⟨_, _, heq⟩ | ⟨c, s, _, hclosed, hc, hs, heq⟩
    · rwa [heq]
    · rwa [heq]
    · by_cases hname : h.Untangled name
      · exact (answers_of_untangled hname (fuel + 1) visited cache hopen hclosed hfuel hcache).2
      · have hkept : h.CacheFresh s.2 := by
          rw [← hs]
          refine askBases_induction hcache (P := fun s => h.CacheFresh s.2) ?_
          intro s hs b hb
          exact ih (hopen.cons hclosed ⟨c, hc⟩ (isBase_of_mem_filter hc hb))
            (by rw [length_cons]; omega) hs
        rw [heq]
        exact hkept.set fun h => (hname h).elim

theorem cacheFresh_tablesAfter (h : ClassHierarchy) (queries : List String) :
    h.CacheFresh (h.tablesAfter queries) :=
  foldlRecOn queries _ (keeps_nil _) (motive := h.CacheFresh)
    fun _ hcache name _ => cacheFresh_tableFrom _ (h.openBelow_nil name) (by simp) hcache

/-! ### Two classes that are bases of each other -/

/-- The same classes with the same bases, of which only one has a method. -/
def withOnly (h : ClassHierarchy) (d m : String) : ClassHierarchy where
  classes := h.classes.map fun entry =>
    (entry.1, { entry.2 with
      virtuals := if entry.1 = d then [m] else [], pureVirtuals := [], overridden := [] })

theorem getClass?_withOnly (h : ClassHierarchy) (d m name : String) :
    (h.withOnly d m).getClass? name = (h.getClass? name).map fun c =>
      { c with
        virtuals := if name = d then [m] else [], pureVirtuals := [], overridden := [] } := by
  unfold withOnly getClass?
  induction h.classes with
  | nil => rfl
  | cons entry rest ih =>
    obtain ⟨k, c⟩ := entry
    rw [map_cons, get?_cons, get?_cons, ih]
    by_cases hname : name = k <;> simp [hname]

theorem isBase_withOnly (h : ClassHierarchy) (d m : String) : (h.withOnly d m).IsBase =
    h.IsBase := by
  funext c b
  simp only [IsBase, related, getClass?_withOnly, Option.map_map]
  rfl

theorem knows_withOnly (h : ClassHierarchy) (d m name : String) :
    (h.withOnly d m).Knows name ↔ h.Knows name := by
  simp [Knows, getClass?_withOnly]

theorem enterOwn_withOnly {c : ClassNode} (hc : (h.withOnly d m).getClass? name = some c)
    (t : VirtualTable) : enterOwn c name t = if name = d then Dict.set t m [d] else t := by
  rw [getClass?_withOnly] at hc
  obtain ⟨c₀, _, rfl⟩ := Option.map_eq_some_iff.1 hc
  by_cases hname : name = d
  · simp [enterOwn, enterMethod, overrides, hname]
  · simp [enterOwn, hname]

theorem mem_tableFrom_withOnly (fuel : Nat) (hcache : CacheWithin cache fun _ _ _ => True)
    (hbefore : cache.has d = false)
    (hafter : ((h.withOnly d m).tableFrom fuel visited name cache).2.has d = true) :
    d ∈ (((h.withOnly d m).tableFrom fuel visited name cache).1.get? m).getD [] := by
  induction fuel generalizing visited name cache with
  | zero =>
    rw [tableFrom, hbefore] at hafter
    cases hafter
  | succ fuel ih =>
    rcases (h.withOnly d m).tableFrom_cases fuel visited name cache with
      ⟨t, _, heq⟩ | ⟨_, _, heq⟩ | ⟨c, s, _, _, hc, hs, heq⟩
    · rw [heq, hbefore] at hafter
      cases hafter
    · rw [heq, hbefore] at hafter
      cases hafter
    · rw [heq, enterOwn_withOnly hc] at hafter ⊢
      by_cases hname : name = d
      · simp [hname, get?_set]
      · have hhas : s.2.has d = true := by
          rcases (has_set _ _ _ _).1 hafter with hd | hd
          · exact (hname hd.symm).elim
          · exact hd
        have hbases : CacheWithin s.2 (fun _ _ _ => True) ∧
            (s.2.has d = true → d ∈ (s.1.get? m).getD []) := by
          rw [← hs]
          refine askBases_induction
            (P := fun s => CacheWithin s.2 (fun _ _ _ => True) ∧
              (s.2.has d = true → d ∈ (s.1.get? m).getD []))
            ⟨hcache, fun hd => by rw [hbefore] at hd; cases hd⟩ ?_
          rintro s ⟨hkept, hlisted⟩ b _
          obtain ⟨hbase, hkept'⟩ := tableFrom_within (h := h.withOnly d m)
            (P := fun _ _ _ => True) [] (by simp) (by simp) fuel
            (nil_subset (name :: visited)) hkept b
          refine ⟨hkept', fun hd => (mem_mergeTable hbase.distinct _ _ _).2 ?_⟩
          cases hd₀ : s.2.has d with
          | true => exact .inl (hlisted hd₀)
          | false => exact .inr (ih hkept hd₀ hd)
        rw [if_neg hname]
        exact hbases.2 hhas

theorem within_of_open (hbd : b ≠ d) (ht : ((h.withOnly d m).virtualTable d []).2.get? b = some t) :
    Within t fun m' _ => m' ≠ m := by
  have hothers : ∀ c m', c ∉ [d] → m' ∈ (h.withOnly d m).related (·.virtuals) c → m' ≠ m := by
    intro c m' hc hm'
    obtain ⟨node, hnode, hmem⟩ := (mem_related_iff _ _ _ _).1 hm'
    rw [getClass?_withOnly] at hnode
    obtain ⟨node₀, _, rfl⟩ := Option.map_eq_some_iff.1 hnode
    rw [mem_singleton] at hc
    simp [hc] at hmem
  rcases (h.withOnly d m).tableFrom_cases ((h.withOnly d m).classes.length + 1) [] d [] with
    ⟨t', ht', _⟩ | ⟨_, _, heq⟩ | ⟨c, s, _, _, _, hs, heq⟩
  · cases ht'
  · rw [virtualTable, heq] at ht
    cases ht
  · rw [virtualTable, heq, get?_set, if_neg hbd] at ht
    have hcache : CacheWithin s.2 fun _ m' _ => m' ≠ m := by
      rw [← hs]
      refine askBases_induction (P := fun s => CacheWithin s.2 fun _ m' _ => m' ≠ m)
        (keeps_nil _) fun s hkept b _ => ?_
      exact (tableFrom_within [d] hothers (fun _ _ _ _ _ _ _ hm' => hm') _
        (List.Subset.refl _) hkept b).2
    exact hcache b t ht

theorem exists_isBase_of_transGen (hpath : TransGen h.IsBase d c) (hne : c ≠ d) :
    ∃ x, x ≠ d ∧ h.IsBase d x ∧ ReflTransGen h.IsBase x c := by
  induction hpath with
  | single hb => exact ⟨_, hne, hb, .refl⟩
  | @tail y z _ hb ih =>
    by_cases hy : y = d
    · exact ⟨z, hne, hy ▸ hb, .refl⟩
    · obtain ⟨x, hx, hdx, hxy⟩ := ih hy
      exact ⟨x, hx, hdx, hxy.tail hb⟩

/-- Of two classes that are bases of each other, one has a method. A question about it leaves the
table of its base cut short, so that the base no longer shows the method. -/
theorem exists_history (hne : c ≠ d) (hup : TransGen h.IsBase d c) (hback : TransGen h.IsBase c d)
    (m : String) :
    ∃ b, h.IsBase d b ∧ d ∈ (((h.withOnly d m).virtualTable b []).1.get? m).getD [] ∧
      d ∉ (((h.withOnly d m).virtualTable b ((h.withOnly d m).tablesAfter [d])).1.get? m).getD
        [] := by
  obtain ⟨b, hbd, hdb, hbc⟩ := exists_isBase_of_transGen hup hne
  have hpath : ReflTransGen h.IsBase b d := hbc.trans hback.to_reflTransGen
  have hb : h.Knows b := by
    rcases ReflTransGen.cases_head hpath with heq | ⟨_, hstep, _⟩
    · exact (hbd heq).elim
    · exact hstep.knows
  refine ⟨b, hdb, ?_, ?_⟩
  · refine mem_tableFrom_withOnly _ (keeps_nil _) rfl ?_
    refine has_virtualTable ?_ ((knows_withOnly h d m d).2 hdb.knows)
    rwa [isBase_withOnly]
  · have hkept : ((h.withOnly d m).virtualTable d []).2.has b = true :=
      has_virtualTable (by rw [isBase_withOnly]; exact .single hdb) ((knows_withOnly h d m b).2 hb)
    obtain ⟨t, ht⟩ := (has_iff _ _).1 hkept
    have hasked : ((h.withOnly d m).virtualTable b ((h.withOnly d m).tablesAfter [d])).1 = t := by
      have hafter : (h.withOnly d m).tablesAfter [d] = ((h.withOnly d m).virtualTable d []).2 := rfl
      rw [hafter, virtualTable, tableFrom_of_kept _ _ [] ht]
    rw [hasked]
    exact fun hd => (within_of_open hbd ht).related m d hd rfl

/-! ### What the questions before can change -/

def baseLists (h : ClassHierarchy) : Dict (List String) := Dict.mapValues (·.bases) h.classes

theorem baseLists_withOnly (h : ClassHierarchy) (d m : String) :
    (h.withOnly d m).baseLists = h.baseLists := by
  unfold baseLists Dict.mapValues withOnly
  rw [List.map_map]
  rfl

/-- The table of an untangled class does not depend on the questions before. Untangled is all that
can be asked of the bases: above any other class there is one whose table changes after a question,
for some placing of a method. Whatever was asked before, a table lists no wrong class. -/
theorem virtualTable_history_free (h : ClassHierarchy) :
    (∀ c, h.Untangled c → ∀ queries,
        (h.virtualTable c (h.tablesAfter queries)).1 = (h.virtualTable c []).1) ∧
      (∀ c, ¬ h.Untangled c → ∃ (h' : ClassHierarchy) (b d m : String),
        h'.baseLists = h.baseLists ∧ ReflTransGen h.IsBase c b ∧
          d ∈ ((h'.virtualTable b []).1.get? m).getD [] ∧
          d ∉ ((h'.virtualTable b (h'.tablesAfter [d])).1.get? m).getD []) ∧
      ∀ c m d queries, d ∈ ((h.virtualTable c (h.tablesAfter queries)).1.get? m).getD [] →
        h.Implements m c d := by
  refine ⟨fun c hc queries => ?_, fun c hc => ?_, fun c m d queries => ?_⟩
  · have hanswers := answers_of_untangled hc
    exact (hanswers _ [] _ (h.openBelow_nil c) (by simp) (by simp)
      (h.cacheFresh_tablesAfter queries)).1
  · simp only [Untangled, not_forall] at hc
    obtain ⟨d, y, hcd, hdy, hyd, hne⟩ := hc
    obtain ⟨b, hdb, hlisted, hmissed⟩ := exists_history (Ne.symm hne) hdy hyd "m"
    exact ⟨h.withOnly d "m", b, d, "m", h.baseLists_withOnly d "m", hcd.tail hdb, hlisted, hmissed⟩
  · exact implements_of_mem_virtualTable queries

/-- A rank that falls from each of some classes to its bases, but for the class itself. -/
theorem untangled_of_rank (names : List String) (rank : String → Nat)
    (hrank : ∀ entry ∈ h.classes, entry.1 ∈ names → ∀ b ∈ entry.2.bases,
      b ∈ names ∧ (b = entry.1 ∨ rank b < rank entry.1))
    (hc : c ∈ names) : h.Untangled c := by
  have hstep : ∀ x y, x ∈ names → h.IsBase x y → y ∈ names ∧ (y = x ∨ rank y < rank x) := by
    intro x y hx hy
    obtain ⟨node, hnode, hmem⟩ := (mem_related_iff _ _ _ _).1 hy
    exact hrank (x, node) (mem_of_get? hnode) hx y hmem
  have hpath : ∀ x y, x ∈ names → ReflTransGen h.IsBase x y →
      y ∈ names ∧ (y = x ∨ rank y < rank x) := by
    intro x y hx hxy
    induction hxy with
    | refl => exact ⟨hx, .inl rfl⟩
    | tail _ hyz ih =>
      obtain ⟨hz, hfall⟩ := hstep _ _ ih.1 hyz
      refine ⟨hz, ?_⟩
      rcases ih.2 with rfl | hlt
      · exact hfall
      · rcases hfall with rfl | hlt'
        · exact .inr hlt
        · exact .inr (hlt'.trans hlt)
  intro x y hcx hxy hyx
  obtain ⟨hx, _⟩ := hpath c x hc hcx
  obtain ⟨hy, hfall⟩ := hpath x y hx hxy.to_reflTransGen
  obtain ⟨_, hfall'⟩ := hpath y x hy hyx.to_reflTransGen
  rcases hfall with rfl | hlt
  · rfl
  · rcases hfall' with heq | hlt'
    · exact heq
    · exact (Nat.lt_asymm hlt hlt').elim

/-- Two classes of one file whose bases have the names of each other, and a class with a base of
its own name. -/
def crossedTree : Ast :=
  .node { kind := .other "TRANSLATION_UNIT" }
    [classTree "Reader" ["Writer"] ["read"], classTree "Writer" ["Reader"] ["write"],
      classTree "Stream" [] ["close"], classTree "File" ["File", "Stream"] []]

/-- The crossed classes do not disturb the others, nor does the class with its own name. -/
theorem virtualTable_besideCrossed :
    ∃ h, ofAst crossedTree = .ok h ∧ h.Untangled "File" ∧
      (h.virtualTable "File" (h.tablesAfter ["Writer", "Stream", "File"])).1 =
        (h.virtualTable "File" []).1 ∧
      (h.virtualTable "File" []).1 = [("close", ["Stream"])] := by
  have hofAst : ofAst crossedTree = .ok ((ofAst crossedTree).toOption.getD {}) := by rfl
  have huntangled : ((ofAst crossedTree).toOption.getD {}).Untangled "File" :=
    untangled_of_rank ["File", "Stream"] (fun c => if c = "Stream" then 0 else 1) (by decide)
      (by decide)
  obtain ⟨hfree, _⟩ := virtualTable_history_free ((ofAst crossedTree).toOption.getD {})
  exact ⟨_, hofAst, huntangled, hfree "File" huntangled _, by decide⟩

/-- After a question about one of the crossed classes the other one no longer shows its method. -/
theorem crossedTree_history :
    ∃ h, ofAst crossedTree = .ok h ∧
      (h.virtualTable "Reader" []).1.get? "write" = some ["Writer"] ∧
      (h.virtualTable "Reader" (h.tablesAfter ["Writer"])).1.get? "write" = none := by
  have hofAst : ofAst crossedTree = .ok ((ofAst crossedTree).toOption.getD {}) := by rfl
  exact ⟨_, hofAst, by decide, by decide⟩

end CodeAtlas.ClassHierarchy

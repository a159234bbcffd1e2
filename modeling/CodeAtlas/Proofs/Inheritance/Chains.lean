import CodeAtlas.Inheritance.Report
import CodeAtlas.Proofs.CallGraph
import CodeAtlas.Proofs.Fault
import Mathlib.Data.List.Chain

/-!
# Maximal chains of overriding methods

If no method overrides itself through others, each path along overriding methods
ends, and the search never meets a method of the chain again: a chain is a
maximal path. `overrideChains_eq_maximal` says that the chains under a name are
exactly the maximal paths from the virtual methods of that name that override
nothing, each of them once.
-/

namespace CodeAtlas

open Relation List Dict

variable {fs : Functions}

namespace Functions

/-- The entry of `x` lists `y` as overridden. -/
def Overrides (fs : Functions) (x y : String) : Prop :=
  ∃ f, fs.get? x = some f ∧ y ∈ f.overrides

theorem Overrides.mem_keys {x y : String} (h : fs.Overrides x y) : x ∈ fs.keys := by
  obtain ⟨f, hf, -⟩ := h
  exact mem_keys_of_get? hf

/-- Each function stands above those that it overrides, so none overrides itself through others. -/
theorem not_transGen_of_rank (rank : String → Nat)
    (h : ∀ entry ∈ fs, ∀ y ∈ entry.2.overrides, rank y < rank entry.1) (x : String) :
    ¬ TransGen fs.Overrides x x := by
  have hstep : ∀ y z, fs.Overrides y z → rank z < rank y := by
    rintro y z ⟨f, hf, hz⟩
    exact h _ (mem_of_get? hf) z hz
  intro hx
  have hless : TransGen (· > ·) (rank x) (rank x) := hx.lift rank hstep
  rw [transGen_eq_self] at hless
  exact Nat.lt_irrefl _ hless

end Functions

namespace Inheritance

/-- A virtual method that overrides nothing and has the name, apart from its scope. -/
def IsBase (fs : Functions) (name b : String) : Prop :=
  ∃ f, fs.get? b = some f ∧ f.isVirtual = true ∧ f.overrides = [] ∧ methodName b = name

/-- A path from a method on which each method overrides the one before, up to a method that nothing
overrides. -/
structure MaximalPath (fs : Functions) (m : String) (p : List String) : Prop where
  starts : p.head? = some m
  climbs : p.IsChain fun y x => fs.Overrides x y
  ends : ∀ last ∈ p.getLast?, ∀ x, ¬ fs.Overrides x last

def Climbs (fs : Functions) : String → List String → Prop
  | m, [] => ∀ x, ¬ fs.Overrides x m
  | m, x :: rest => fs.Overrides x m ∧ Climbs fs x rest

theorem climbs_iff (fs : Functions) (m : String) (rest : List String) :
    Climbs fs m rest ↔ MaximalPath fs m (m :: rest) := by
  induction rest generalizing m with
  | nil =>
    refine ⟨fun h => ⟨rfl, isChain_singleton m, ?_⟩, fun h => h.ends m rfl⟩
    rintro last ⟨⟩
    exact h
  | cons x rest ih =>
    rw [Climbs, ih]
    constructor
    · rintro ⟨hx, h⟩
      exact ⟨rfl, isChain_cons_cons.2 ⟨hx, h.climbs⟩, by simpa using h.ends⟩
    · intro h
      obtain ⟨hx, hclimbs⟩ := isChain_cons_cons.1 h.climbs
      exact ⟨hx, rfl, hclimbs, by simpa using h.ends⟩

theorem maximalPath_iff (fs : Functions) (m : String) (p : List String) :
    MaximalPath fs m p ↔ ∃ rest, p = m :: rest ∧ Climbs fs m rest := by
  constructor
  · intro h
    obtain ⟨rest, rfl⟩ := head?_eq_some_iff.1 h.starts
    exact ⟨rest, rfl, (climbs_iff fs m rest).2 h⟩
  · rintro ⟨rest, rfl, h⟩
    exact (climbs_iff fs m rest).1 h

/-! ### Paths without cycles -/

theorem mem_keys_of_isChain {m x : String} {rest : List String}
    (h : (m :: rest).IsChain fun y x => fs.Overrides x y) (hx : x ∈ rest) : x ∈ fs.keys := by
  induction rest generalizing m with
  | nil => cases hx
  | cons y rest ih =>
    obtain ⟨hy, hrest⟩ := isChain_cons_cons.1 h
    rcases mem_cons.1 hx with rfl | hx
    · exact hy.mem_keys
    · exact ih hrest hx

theorem exists_climbs_or (fs : Functions) (n : Nat) (m : String) :
    (∃ rest, Climbs fs m rest) ∨
      ∃ rest, (m :: rest).IsChain (fun y x => fs.Overrides x y) ∧ rest.length = n := by
  induction n generalizing m with
  | zero => exact .inr ⟨[], isChain_singleton m, rfl⟩
  | succ n ih =>
    by_cases hm : ∃ x, fs.Overrides x m
    · obtain ⟨x, hx⟩ := hm
      rcases ih x with ⟨rest, hrest⟩ | ⟨rest, hrest, hlength⟩
      · exact .inl ⟨x :: rest, hx, hrest⟩
      · exact .inr ⟨x :: rest, isChain_cons_cons.2 ⟨hx, hrest⟩, congrArg (· + 1) hlength⟩
    · exact .inl ⟨[], not_exists.1 hm⟩

section

variable (hacyclic : ∀ x, ¬ TransGen fs.Overrides x x)
include hacyclic

theorem nodup_of_isChain {p : List String} (h : p.IsChain fun y x => fs.Overrides x y) :
    p.Nodup := by
  let below : String → String → Prop := fun y x => TransGen fs.Overrides x y
  have : Trans below below below := ⟨fun hxy hyz => hyz.trans hxy⟩
  have hbelow : p.IsChain below := h.imp fun _ _ hxy => .single hxy
  refine (isChain_iff_pairwise.1 hbelow).imp ?_
  rintro y x hxy rfl
  exact hacyclic y hxy

theorem length_le_of_isChain {m : String} {rest : List String}
    (h : (m :: rest).IsChain fun y x => fs.Overrides x y) : rest.length ≤ fs.length :=
  length_le_of_subset_keys (nodup_of_isChain hacyclic h).of_cons
    fun _ hx => mem_keys_of_isChain h hx

theorem exists_climbs (m : String) : ∃ rest, Climbs fs m rest := by
  rcases exists_climbs_or fs (fs.length + 1) m with h | ⟨rest, hrest, hlength⟩
  · exact h
  · have := length_le_of_isChain hacyclic hrest
    omega

end

/-! ### The search -/

/-- What follows a method on the maximal paths from it that have at most `n` methods. -/
def climbsUpTo (fs : Functions) : Nat → String → List (List String)
  | 0, _ => []
  | n + 1, m =>
    match overriders fs m with
    | [] => [[]]
    | next => next.flatMap fun x => (climbsUpTo fs n x).map (x :: ·)

section

variable (hkeys : fs.keys.Nodup)
include hkeys

theorem mem_overriders_iff (m x : String) : x ∈ overriders fs m ↔ fs.Overrides x m := by
  simp [overriders, Functions.Overrides, ← mem_iff_get? hkeys]

theorem nodup_overriders (m : String) : (overriders fs m).Nodup :=
  hkeys.sublist (filter_sublist.map _)

theorem mem_climbsUpTo_iff (n : Nat) (m : String) (rest : List String) :
    rest ∈ climbsUpTo fs n m ↔ rest.length < n ∧ Climbs fs m rest := by
  induction n generalizing m rest with
  | zero => simp [climbsUpTo]
  | succ n ih =>
    have hnext := mem_overriders_iff hkeys m
    rw [climbsUpTo]
    cases rest with
    | nil =>
      have hends : Climbs fs m [] ↔ overriders fs m = [] := by
        simp [Climbs, ← hnext, eq_nil_iff_forall_not_mem]
      split
      · next hnone => simp [hends, hnone]
      · next hsome => simpa [hends] using hsome
    | cons x rest =>
      have hgoes : (x :: rest) ∈ (overriders fs m).flatMap (fun x =>
          (climbsUpTo fs n x).map (x :: ·)) ↔
          x ∈ overriders fs m ∧ rest ∈ climbsUpTo fs n x := by simp
      rw [Climbs, ← hnext, length_cons, Nat.succ_lt_succ_iff]
      split
      · next hnone => simp [hnone]
      · rw [hgoes, ih]
        exact and_left_comm

theorem nodup_climbsUpTo (n : Nat) (m : String) : (climbsUpTo fs n m).Nodup := by
  induction n generalizing m with
  | zero => exact .nil
  | succ n ih =>
    rw [climbsUpTo]
    split
    · exact nodup_singleton _
    · refine nodup_flatMap.2 ⟨fun x _ => (ih x).map fun _ _ h => (cons.inj h).2, ?_⟩
      refine (nodup_overriders hkeys m).imp fun hne rest hx hy => hne ?_
      obtain ⟨_, -, rfl⟩ := mem_map.1 hx
      obtain ⟨_, -, h⟩ := mem_map.1 hy
      exact (cons.inj h).1.symm

variable (hacyclic : ∀ x, ¬ TransGen fs.Overrides x x)
include hacyclic

/-- Without cycles the search never meets a method before it again. -/
theorem chainsFrom_eq (n : Nat) {before : List String} {m : String}
    (hbefore : ∀ y ∈ before, TransGen fs.Overrides m y) :
    chainsFrom fs n before m = (climbsUpTo fs n m).map fun rest => before.reverse ++ m :: rest := by
  induction n generalizing before m with
  | zero => rfl
  | succ n ih =>
    have habove : ∀ x ∈ overriders fs m, ∀ y ∈ m :: before, TransGen fs.Overrides x y := by
      intro x hx
      have hxm := (mem_overriders_iff hkeys m x).1 hx
      exact forall_mem_cons.2 ⟨.single hxm, fun y hy => .head hxm (hbefore y hy)⟩
    have hnew : ∀ x ∈ overriders fs m, (!(m :: before).contains x) = true := by
      intro x hx
      have hmem : x ∉ m :: before := fun hmem => hacyclic x (habove x hx x hmem)
      simpa using hmem
    rw [chainsFrom, climbsUpTo]
    cases hnext : overriders fs m with
    | nil => simp
    | cons next others =>
      dsimp only
      rw [← hnext, filter_eq_self.2 hnew, map_flatMap]
      refine flatMap_congr fun x hx => ?_
      rw [ih (habove x hx), List.map_map]
      simp

theorem mem_chainsFrom_iff (m : String) (p : List String) :
    p ∈ chainsFrom fs (fs.length + 1) [] m ↔ MaximalPath fs m p := by
  rw [chainsFrom_eq hkeys hacyclic _ (forall_mem_nil _), maximalPath_iff, mem_map]
  refine exists_congr fun rest => ?_
  rw [mem_climbsUpTo_iff hkeys]
  constructor
  · rintro ⟨⟨-, hrest⟩, rfl⟩
    exact ⟨rfl, hrest⟩
  · rintro ⟨rfl, hrest⟩
    have hlength := length_le_of_isChain hacyclic ((climbs_iff fs m rest).1 hrest).climbs
    exact ⟨⟨Nat.lt_succ_of_le hlength, hrest⟩, rfl⟩

theorem nodup_chainsFrom (n : Nat) (m : String) : (chainsFrom fs n [] m).Nodup := by
  rw [chainsFrom_eq hkeys hacyclic _ (forall_mem_nil _)]
  exact (nodup_climbsUpTo hkeys n m).map fun _ _ h => (cons.inj h).2

end

/-! ### Virtual methods by name -/

def virtualNamed (fs : Functions) (name : String) : List String :=
  (fs.filter fun (_, f) => f.isVirtual && methodName f.name == name).map (·.2.name)

theorem virtualNamed_cons (key : String) (f : Function) (fs : Functions) (name : String) :
    virtualNamed ((key, f) :: fs) name =
      (if f.isVirtual && methodName f.name == name then [f.name] else []) ++
        virtualNamed fs name := by
  unfold virtualNamed
  rw [filter_cons]
  dsimp only
  split <;> rfl

theorem getD_virtualByName (fs : Functions) (name : String) :
    ((virtualByName fs).get? name).getD [] = virtualNamed fs name := by
  -- the groups of the entries so far, for any groups at the start
  have hgroups : ∀ d : Dict (List String),
      (Dict.get? (fs.foldl (fun d (_, f) =>
        if f.isVirtual then Dict.push d (methodName f.name) f.name else d) d) name).getD [] =
        (d.get? name).getD [] ++ virtualNamed fs name := by
    induction fs with
    | nil => simp [virtualNamed]
    | cons entry fs ih =>
      intro d
      obtain ⟨key, f⟩ := entry
      rw [foldl_cons, ih, virtualNamed_cons, ← append_assoc]
      congr 1
      dsimp only
      cases f.isVirtual with
      | false => simp
      | true =>
        by_cases hname : methodName f.name = name
        · simp [get?_push, hname]
        · simp [get?_push, hname, Ne.symm hname]
  exact hgroups []

theorem nodup_keys_virtualByName (fs : Functions) : (virtualByName fs).keys.Nodup := by
  refine foldlRecOn (motive := fun d : Dict (List String) => d.keys.Nodup) fs _ .nil ?_
  intro d hd entry _
  dsimp only
  split
  · exact nodup_keys_push hd _ _
  · exact hd

def overridesNothing (fs : Functions) (name : String) : Bool :=
  match fs.get? name with
  | some f => f.overrides.isEmpty
  | none => false

theorem baseMethods_eq {names : List String} (hknown : ∀ name ∈ names, fs.has name = true) :
    baseMethods fs names = .ok (names.filter (overridesNothing fs)) := by
  refine filterM_eq_ok fun name hname => ?_
  obtain ⟨f, hf⟩ := (has_iff _ _).1 (hknown name hname)
  rw [overridesNothing, hf]

def chainsOf (fs : Functions) (methods : List String) : List (List String) :=
  (methods.filter (overridesNothing fs)).flatMap (chainsFrom fs (fs.length + 1) [])

def chainsByName (fs : Functions) : Dict (List (List String)) :=
  (Dict.mapValues (chainsOf fs) (virtualByName fs)).filter fun (_, chains) => !chains.isEmpty

theorem nodup_keys_chainsOf (fs : Functions) :
    (Dict.mapValues (chainsOf fs) (virtualByName fs)).keys.Nodup := by
  rw [keys_mapValues]
  exact nodup_keys_virtualByName fs

theorem nodup_keys_chainsByName (fs : Functions) : (chainsByName fs).keys.Nodup :=
  (nodup_keys_chainsOf fs).sublist (filter_sublist.map _)

theorem get?_chainsByName_iff (fs : Functions) (name : String) (chains : List (List String)) :
    (chainsByName fs).get? name = some chains ↔
      chains = chainsOf fs (virtualNamed fs name) ∧ chains ≠ [] := by
  rw [← mem_iff_get? (nodup_keys_chainsByName fs), chainsByName, mem_filter,
    mem_iff_get? (nodup_keys_chainsOf fs), get?_mapValues, ← getD_virtualByName]
  cases (virtualByName fs).get? name with
  | none => simp [chainsOf]
  | some methods =>
    rw [Option.map_some, Option.some.injEq, Option.getD_some]
    exact and_congr eq_comm (by simp)

section

variable (hkeys : fs.keys.Nodup) (hnames : Dict.All (fun name f => f.name = name) fs)
include hkeys hnames

theorem mem_virtualNamed_iff (name b : String) :
    b ∈ virtualNamed fs name ↔
      ∃ f, fs.get? b = some f ∧ f.isVirtual = true ∧ methodName b = name := by
  simp only [virtualNamed, mem_map, mem_filter, Bool.and_eq_true, beq_iff_eq]
  constructor
  · rintro ⟨⟨key, f⟩, ⟨hmem, hvirtual, hname⟩, rfl⟩
    have hkey : f.name = key := hnames _ hmem
    exact ⟨f, (mem_iff_get? hkeys _ _).1 (hkey ▸ hmem), hvirtual, hname⟩
  · rintro ⟨f, hf, hvirtual, hname⟩
    have hmem := mem_of_get? hf
    have hkey : f.name = b := hnames _ hmem
    exact ⟨(b, f), ⟨hmem, hvirtual, hkey ▸ hname⟩, hkey⟩

theorem nodup_virtualNamed (name : String) : (virtualNamed fs name).Nodup := by
  have hsame : virtualNamed fs name =
      (fs.filter fun (_, f) => f.isVirtual && methodName f.name == name).map (·.1) :=
    map_congr_left fun entry hentry => hnames entry (mem_of_mem_filter hentry)
  rw [hsame]
  exact hkeys.sublist (filter_sublist.map _)

theorem mem_filter_virtualNamed_iff (name b : String) :
    b ∈ (virtualNamed fs name).filter (overridesNothing fs) ↔ IsBase fs name b := by
  rw [mem_filter, mem_virtualNamed_iff hkeys hnames]
  constructor
  · rintro ⟨⟨f, hf, hvirtual, hname⟩, hnothing⟩
    rw [overridesNothing, hf] at hnothing
    exact ⟨f, hf, hvirtual, isEmpty_iff.1 hnothing, hname⟩
  · rintro ⟨f, hf, hvirtual, hnothing, hname⟩
    exact ⟨⟨f, hf, hvirtual, hname⟩, by simp [overridesNothing, hf, hnothing]⟩

theorem overrideChains_eq : overrideChains fs = .ok (chainsByName fs) := by
  have hgroup : ∀ entry ∈ virtualByName fs, baseMethods fs entry.2 =
      .ok (entry.2.filter (overridesNothing fs)) := by
    rintro ⟨name, methods⟩ hentry
    have hget := (mem_iff_get? (nodup_keys_virtualByName fs) _ _).1 hentry
    have hmethods := getD_virtualByName fs name
    rw [hget] at hmethods
    refine baseMethods_eq fun b hb => ?_
    obtain ⟨f, hf, -⟩ := (mem_virtualNamed_iff hkeys hnames name b).1 (hmethods ▸ hb)
    exact (has_iff _ _).2 ⟨f, hf⟩
  unfold overrideChains
  rw [mapM_eq_ok (g := fun entry => (entry.1, chainsOf fs entry.2))]
  · rfl
  · rintro ⟨name, methods⟩ hentry
    dsimp only
    rw [hgroup _ hentry]
    rfl

end

/-- If no function overrides itself through others, the chains under a name are the maximal paths
along overriding methods from the virtual methods of the name that override nothing, each of them
once, and a name without such methods has no entry. -/
theorem overrideChains_eq_maximal {fs : Functions} (hkeys : fs.keys.Nodup)
    (hnames : Dict.All (fun name f => f.name = name) fs)
    (hacyclic : ∀ x, ¬ TransGen fs.Overrides x x) :
    ∃ d, overrideChains fs = .ok d ∧ d.keys.Nodup ∧
      (∀ name, d.has name = true ↔ ∃ b, IsBase fs name b) ∧
      ∀ name chains, d.get? name = some chains →
        chains.Nodup ∧ ∀ p, p ∈ chains ↔ ∃ b, IsBase fs name b ∧ MaximalPath fs b p := by
  have hmem : ∀ name p, p ∈ chainsOf fs (virtualNamed fs name) ↔
      ∃ b, IsBase fs name b ∧ MaximalPath fs b p := by
    intro name p
    simp only [chainsOf, mem_flatMap, mem_filter_virtualNamed_iff hkeys hnames,
      mem_chainsFrom_iff hkeys hacyclic]
  refine ⟨_, overrideChains_eq hkeys hnames, nodup_keys_chainsByName fs, fun name => ?_, ?_⟩
  · simp only [Dict.has_iff, get?_chainsByName_iff]
    constructor
    · rintro ⟨_, rfl, hne⟩
      obtain ⟨p, hp⟩ := exists_mem_of_ne_nil _ hne
      obtain ⟨b, hb, -⟩ := (hmem name p).1 hp
      exact ⟨b, hb⟩
    · rintro ⟨b, hb⟩
      obtain ⟨rest, hrest⟩ := exists_climbs hacyclic b
      exact ⟨_, rfl, ne_nil_of_mem ((hmem name _).2 ⟨b, hb, (climbs_iff fs b rest).1 hrest⟩)⟩
  · intro name chains hchains
    obtain ⟨rfl, -⟩ := (get?_chainsByName_iff fs name chains).1 hchains
    refine ⟨nodup_flatMap.2 ⟨fun b _ => nodup_chainsFrom hkeys hacyclic _ b, ?_⟩, hmem name⟩
    -- paths from different methods differ at their start
    refine ((nodup_virtualNamed hkeys hnames name).filter _).imp fun hne p hp hp' => hne ?_
    have hstart := ((mem_chainsFrom_iff hkeys hacyclic _ p).1 hp).starts
    have hstart' := ((mem_chainsFrom_iff hkeys hacyclic _ p).1 hp').starts
    exact Option.some.inj (hstart.symm.trans hstart')

/-- A virtual method with the methods that it overrides. -/
def virtualMethod (name : String) (overridden : List String) : String × Function :=
  (name, { name, isVirtual := true, overrides := overridden })

/-- A method that is overridden along two ways, which meet again. -/
def drawings : Functions :=
  [virtualMethod "Shape::draw" [], virtualMethod "Round::draw" ["Shape::draw"],
    virtualMethod "Flat::draw" ["Shape::draw"],
    virtualMethod "Disc::draw" ["Round::draw", "Flat::draw"]]

theorem overrideChains_drawings :
    drawings.keys.Nodup ∧ Dict.All (fun name f => f.name = name) drawings ∧
      (∀ x, ¬ TransGen drawings.Overrides x x) ∧
      overrideChains drawings =
        .ok [("draw", [["Shape::draw", "Round::draw", "Disc::draw"],
          ["Shape::draw", "Flat::draw", "Disc::draw"]])] ∧
      ∃ d, overrideChains drawings = .ok d ∧ d.keys.Nodup ∧
        (∀ name, d.has name = true ↔ ∃ b, IsBase drawings name b) ∧
        ∀ name chains, d.get? name = some chains →
          chains.Nodup ∧
            ∀ p, p ∈ chains ↔ ∃ b, IsBase drawings name b ∧ MaximalPath drawings b p := by
  have hkeys : drawings.keys.Nodup := by decide
  have hnames : Dict.All (fun name f => f.name = name) drawings := by
    unfold Dict.All
    decide
  have hacyclic : ∀ x, ¬ TransGen drawings.Overrides x x := by
    exact Functions.not_transGen_of_rank (fun x => drawings.keys.idxOf x) (by decide)
  exact ⟨hkeys, hnames, hacyclic, rfl, overrideChains_eq_maximal hkeys hnames hacyclic⟩

end Inheritance

end CodeAtlas

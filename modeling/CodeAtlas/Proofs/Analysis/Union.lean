import CodeAtlas.Analysis.File
import CodeAtlas.Proofs.CallGraph
import CodeAtlas.Proofs.Session

/-!
# Graphs of files put together

A graph of a directory is made of the graphs of its files, which arrive in any
order. `IsUnion parts g` says what the outcome is: the names, calls, callers and
missing functions are those of the parts, and no list repeats an item. It does
not mention an order.

A way to combine two entries of one function that joins their calls and callers
(`JoinsCalls`) leads to the union. The two ways in use differ in what else they
take over, but not in the lists that relate functions (`Function.relations`).
-/

namespace CodeAtlas

open List Dict

variable {list : Function → List String} {parts : List CallGraph} {entry : String × Function}
  (kind : String) (l : List (String × Function)) (g : CallGraph)

namespace CallGraph

/-- The graph holds what its parts hold and nothing else. -/
structure IsUnion (parts : List CallGraph) (g : CallGraph) : Prop extends g.Unrepeated where
  has_iff : ∀ name, g.functions.has name = true ↔ ∃ part ∈ parts, part.functions.has name = true
  calls_iff : ∀ f c, g.functions.Calls f c ↔ ∃ part ∈ parts, part.functions.Calls f c
  calledBy_iff : ∀ c f, g.functions.CalledBy c f ↔ ∃ part ∈ parts, part.functions.CalledBy c f
  missing_iff : ∀ name, name ∈ g.missing ↔ ∃ part ∈ parts, name ∈ part.missing

theorem IsUnion.perm {parts' : List CallGraph} {g : CallGraph} (h : IsUnion parts g)
    (hperm : parts.Perm parts') : IsUnion parts' g where
  toUnrepeated := h.toUnrepeated
  has_iff name := by simp only [h.has_iff, hperm.mem_iff]
  calls_iff f c := by simp only [h.calls_iff, hperm.mem_iff]
  calledBy_iff c f := by simp only [h.calledBy_iff, hperm.mem_iff]
  missing_iff name := by simp only [h.missing_iff, hperm.mem_iff]

theorem isUnion_nil : IsUnion [] {} where
  distinct := nodup_nil
  orderly := all_nil Orderly
  missing := nodup_nil
  has_iff name := by simp [Dict.has]
  calls_iff f c := by simp [Functions.Calls]
  calledBy_iff c f := by simp [Functions.CalledBy]
  missing_iff name := by simp

/-! ### Putting entries in -/

def Lists (list : Function → List String) (fs : Functions) (name item : String) : Prop :=
  ∃ f, fs.get? name = some f ∧ item ∈ list f

/-- Two entries of one function are combined into one with the calls and callers of both. -/
structure JoinsCalls (combine : Function → Function → Function) : Prop where
  name : ∀ f other, (combine f other).name = f.name
  calls : ∀ f other, (combine f other).calls = addAllNew f.calls other.calls
  calledBy : ∀ f other, (combine f other).calledBy = addAllNew f.calledBy other.calledBy

theorem joinsCalls_absorb : JoinsCalls Function.absorb := by
  constructor <;> intro f other <;> unfold Function.absorb <;>
    cases other.isTemplate <;> cases other.isVirtual <;> rfl

theorem joinsCalls_unite : JoinsCalls Function.unite := by
  constructor <;> intro f other <;> unfold Function.unite <;>
    cases other.isTemplate <;> cases other.isVirtual <;> rfl

section

variable {combine : Function → Function → Function}

theorem has_putWith (hentry : entry.2.name = entry.1) (name : String) :
    (putWith combine g entry).functions.has name = true ↔
      g.functions.has name = true ∨ entry.1 = name := by
  unfold putWith
  split_ifs with hknown
  · simp only [adjust, has_adjust]
    constructor
    · exact .inl
    · rintro (h | rfl)
      · exact h
      · exact hknown
  · rw [addFunction, has_set, hentry, or_comm, eq_comm (b := entry.1)]

theorem lists_putWith
    (hlist : ∀ f other, list (combine f other) = addAllNew (list f) (list other)) (g : CallGraph)
    (hentry : entry.2.name = entry.1) (name item : String) :
    Lists list (putWith combine g entry).functions name item ↔
      Lists list g.functions name item ∨ entry.1 = name ∧ item ∈ list entry.2 := by
  unfold putWith Lists
  by_cases hname : entry.1 = name
  · subst hname
    split_ifs with hnew
    · obtain ⟨f, hf⟩ := (has_iff _ _).1 hnew
      simp [adjust, get?_adjust, hf, hlist, mem_addAllNew]
    · have hnone := (has_eq_false_iff _ _).1 (Bool.not_eq_true _ ▸ hnew)
      simp [addFunction, get?_set, hentry, hnone]
  · have hname' : ¬ name = entry.1 := fun h => hname h.symm
    split
    · simp [adjust, get?_adjust, hname, hname']
    · simp [addFunction, get?_set, hentry, hname, hname']

theorem unrepeated_putWith (hcombine : JoinsCalls combine) {g : CallGraph} (hg : g.Unrepeated)
    (hentry : Orderly entry.1 entry.2) : (putWith combine g entry).Unrepeated := by
  unfold putWith
  split
  · refine ⟨by simpa only [adjust, keys_adjust] using hg.distinct, ?_, hg.missing⟩
    refine Dict.All.adjust hg.orderly (k := entry.1) (f := (combine · entry.2)) fun f hf => ?_
    rw [Orderly, hcombine.name, hcombine.calls, hcombine.calledBy]
    exact ⟨hf.1, nodup_addAllNew hf.2.1 _, nodup_addAllNew hf.2.2 _⟩
  · refine ⟨nodup_keys_set hg.distinct _ _, ?_, hg.missing⟩
    rw [addFunction, hentry.1]
    exact hg.orderly.set hentry

theorem missing_putWith (entry : String × Function) :
    (putWith combine g entry).missing = g.missing := by
  unfold putWith
  split <;> rfl

theorem has_putAll (hl : Dict.All Orderly l) (g : CallGraph) (name : String) :
    (l.foldl (putWith combine) g).functions.has name = true ↔
      g.functions.has name = true ∨ ∃ entry ∈ l, entry.1 = name := by
  induction l generalizing g with
  | nil => simp
  | cons entry rest ih =>
    rw [foldl_cons, ih (fun e he => hl e (mem_cons_of_mem _ he)),
      has_putWith g (hl entry mem_cons_self).1, or_assoc, exists_mem_cons_iff]

theorem lists_putAll (hlist : ∀ f other, list (combine f other) = addAllNew (list f) (list other))
    (l : List (String × Function)) (hl : Dict.All Orderly l) (g : CallGraph) (name item : String) :
    Lists list (l.foldl (putWith combine) g).functions name item ↔
      Lists list g.functions name item ∨ ∃ entry ∈ l, entry.1 = name ∧ item ∈ list entry.2 := by
  induction l generalizing g with
  | nil => simp
  | cons entry rest ih =>
    rw [foldl_cons, ih (fun e he => hl e (mem_cons_of_mem _ he)),
      lists_putWith hlist g (hl entry mem_cons_self).1, or_assoc, exists_mem_cons_iff]

theorem unrepeated_putAll (hcombine : JoinsCalls combine) {l : List (String × Function)}
    (hl : Dict.All Orderly l) {g : CallGraph} (hg : g.Unrepeated) :
    (l.foldl (putWith combine) g).Unrepeated :=
  foldlRecOn l _ hg fun _ hg' entry hentry => unrepeated_putWith hcombine hg' (hl entry hentry)

theorem missing_putAll : (l.foldl (putWith combine) g).missing = g.missing :=
  foldlRecOn (motive := fun g' : CallGraph => g'.missing = g.missing) l _ rfl
    fun g' hg' entry _ => (missing_putWith g' entry).trans hg'

theorem addMissing_foldl (l : List String) :
    l.foldl addMissing g = { g with missing := addAllNew g.missing l } := by
  unfold addAllNew
  induction l generalizing g with
  | nil => rfl
  | cons name rest ih => exact ih (g.addMissing name)

end

/-! ### The union -/

/-- An entry of a graph without repetitions is the one that its name stands for. -/
theorem Unrepeated.lists_iff {g : CallGraph} (hg : g.Unrepeated) (list : Function → List String)
    (name item : String) :
    (∃ entry ∈ g.functions, entry.1 = name ∧ item ∈ list entry.2) ↔
      Lists list g.functions name item := by
  constructor
  · rintro ⟨⟨k, f⟩, hmem, rfl, hitem⟩
    exact ⟨f, (mem_iff_get? hg.distinct k f).1 hmem, hitem⟩
  · rintro ⟨f, hf, hitem⟩
    exact ⟨(name, f), mem_of_get? hf, rfl, hitem⟩

theorem has_iff_exists_mem (fs : Functions) (name : String) :
    fs.has name = true ↔ ∃ entry ∈ fs, entry.1 = name := by
  rw [has_iff, ← mem_keys_iff, Dict.keys, mem_map]

theorem IsUnion.mergeWith {combine : Function → Function → Function}
    (hcombine : JoinsCalls combine) {g part : CallGraph} (h : IsUnion parts g)
    (hpart : part.Unrepeated) : IsUnion (parts ++ [part]) (mergeWith combine g part) := by
  have hput := unrepeated_putAll hcombine hpart.orderly h.toUnrepeated
  have hlists : ∀ {list : Function → List String},
      (∀ f other, list (combine f other) = addAllNew (list f) (list other)) → ∀ name item,
      Lists list (part.functions.foldl (putWith combine) g).functions name item ↔
        Lists list g.functions name item ∨ Lists list part.functions name item := by
    intro list hlist name item
    rw [lists_putAll hlist part.functions hpart.orderly, hpart.lists_iff]
  have hexists : ∀ P : CallGraph → Prop,
      (∃ p ∈ parts ++ [part], P p) ↔ (∃ p ∈ parts, P p) ∨ P part := by
    intro P
    simp [or_and_right, exists_or]
  rw [CallGraph.mergeWith, addMissing_foldl]
  refine ⟨⟨hput.distinct, hput.orderly, nodup_addAllNew hput.missing _⟩, ?_, ?_, ?_, ?_⟩
  · intro name
    rw [hexists, ← h.has_iff, has_iff_exists_mem part.functions]
    exact has_putAll part.functions hpart.orderly g name
  · intro f c
    rw [hexists, ← h.calls_iff]
    exact hlists hcombine.calls f c
  · intro c f
    rw [hexists, ← h.calledBy_iff]
    exact hlists hcombine.calledBy c f
  · intro name
    rw [hexists, ← h.missing_iff, mem_addAllNew, missing_putAll]

theorem isUnion_foldl {combine : Function → Function → Function} (hcombine : JoinsCalls combine)
    (hparts : ∀ part ∈ parts, part.Unrepeated) :
    IsUnion parts (parts.foldl (mergeWith combine) {}) := by
  induction parts using reverseRecOn with
  | nil => exact isUnion_nil
  | append_singleton parts part ih =>
    rw [foldl_append]
    have hbefore := ih fun p hp => hparts p (mem_append_left _ hp)
    exact hbefore.mergeWith hcombine (hparts part (by simp))

end CallGraph

/-! ### The lists that relate functions -/

/-- The calls, the callers, the specializations and the overridden methods. -/
def Function.relations (f : Function) :
    List String × List String × List String × List String :=
  (f.calls, f.calledBy, f.specializations, f.overrides)

def Function.joinRelations (r : List String × List String × List String × List String)
    (other : Function) : List String × List String × List String × List String :=
  (addAllNew r.1 other.calls, addAllNew r.2.1 other.calledBy,
    if other.isTemplate then addAllNew r.2.2.1 other.specializations else r.2.2.1,
    if other.isVirtual then addAllNew r.2.2.2 other.overrides else r.2.2.2)

theorem Function.relations_absorb (f other : Function) :
    (f.absorb other).relations = joinRelations f.relations other := by
  unfold absorb joinRelations relations
  cases other.isTemplate <;> cases other.isVirtual <;> rfl

theorem Function.relations_unite (f other : Function) :
    (f.unite other).relations = joinRelations f.relations other := by
  unfold unite joinRelations relations
  cases other.isTemplate <;> cases other.isVirtual <;> rfl

namespace CallGraph

/-- The lists that relate functions, by name. -/
def relations (g : CallGraph) : Dict (List String × List String × List String × List String) :=
  Dict.mapValues Function.relations g.functions

theorem relations_putWith {combine : Function → Function → Function}
    (hcombine : ∀ f other, (combine f other).relations = Function.joinRelations f.relations other)
    (entry : String × Function) :
    (putWith combine g entry).relations =
      if g.relations.has entry.1 then
        Dict.adjust g.relations entry.1 (Function.joinRelations · entry.2)
      else Dict.set g.relations entry.2.name entry.2.relations := by
  unfold putWith relations
  rw [has_mapValues]
  split
  · exact Dict.mapValues_adjust _ _ _ (combine · entry.2) _ fun f => hcombine f entry.2
  · exact Dict.mapValues_set _ _ _ _

theorem relations_mergeWith {combine combine' : Function → Function → Function}
    (hcombine : ∀ f other, (combine f other).relations = Function.joinRelations f.relations other)
    (hcombine' : ∀ f other, (combine' f other).relations = Function.joinRelations f.relations other)
    {g g' : CallGraph} (h : g.relations = g'.relations) (part : CallGraph) :
    (mergeWith combine g part).relations = (mergeWith combine' g' part).relations := by
  rw [mergeWith, mergeWith, addMissing_foldl, addMissing_foldl]
  show (part.functions.foldl (putWith combine) g).relations =
    (part.functions.foldl (putWith combine') g').relations
  generalize part.functions = l
  induction l generalizing g g' with
  | nil => exact h
  | cons entry rest ih =>
    refine ih ?_
    rw [relations_putWith _ hcombine, relations_putWith _ hcombine', h]

theorem relations_foldl_absorb (parts : List CallGraph) :
    (parts.foldl absorb {}).relations = (parts.foldl merge {}).relations := by
  induction parts using reverseRecOn with
  | nil => rfl
  | append_singleton parts part ih =>
    rw [foldl_append, foldl_append]
    exact relations_mergeWith Function.relations_absorb Function.relations_unite ih part

end CallGraph

/-! ### The graphs as they arrive -/

namespace Analysis

def received (arrivals : List (String × Except Fault CallGraph)) : List CallGraph :=
  arrivals.filterMap (·.2.toOption)

theorem run_takeIn (total : Nat) (combine : CallGraph → CallGraph → CallGraph)
    (n : Nat) (arrival : String × Except Fault CallGraph) (session : Session) :
    ∃ session', (takeIn kind total combine (g, n) arrival).run.run session =
      (.ok ((arrival.2.toOption.map (combine g)).getD g, n + 1), session') := by
  obtain ⟨file, outcome⟩ := arrival
  cases outcome <;> exact ⟨_, rfl⟩

theorem run_takeIn_all (total : Nat) (combine : CallGraph → CallGraph → CallGraph)
    (arrivals : List (String × Except Fault CallGraph)) (n : Nat)
    (session : Session) :
    ∃ session', (arrivals.foldlM (takeIn kind total combine) (g, n)).run.run session =
      (.ok ((received arrivals).foldl combine g, n + arrivals.length), session') := by
  induction arrivals generalizing g n session with
  | nil => exact ⟨session, rfl⟩
  | cons arrival rest ih =>
    obtain ⟨session₁, h₁⟩ := run_takeIn kind g total combine n arrival session
    obtain ⟨session', h'⟩ := ih ((arrival.2.toOption.map (combine g)).getD g) (n + 1) session₁
    refine ⟨session', ?_⟩
    rw [foldlM_cons, Run.run_bind_of_ok h₁, h', length_cons, Nat.add_assoc,
      Nat.add_comm 1, received, received, filterMap_cons]
    cases arrival.2.toOption <;> rfl

theorem run_collect (combine : CallGraph → CallGraph → CallGraph)
    (arrivals : List (String × Except Fault CallGraph)) (session : Session) :
    ∃ session', (collect kind combine arrivals).run.run session =
      (.ok ((received arrivals).foldl combine {}), session') := by
  obtain ⟨session', h⟩ := run_takeIn_all kind {} arrivals.length combine arrivals 1 session
  exact ⟨session', Run.run_bind_of_ok h⟩

end Analysis

end CodeAtlas

import CodeAtlas.PlainGraph
import CodeAtlas.Proofs.Dict
import Mathlib.Algebra.Ring.Nat

/-!
# Plain graphs put together

A plain graph takes in a call only between functions that it knows. A merge
still loses no call, for two reasons: all functions are taken in before the
first call, and the other graph knows both ends of each of its calls
(`Mirrored.has_listed`). That holds of every graph that was built up by the
operations themselves (`Built`).

A graph is read through three views: the calls of a name, its callers, and what
is known about it apart from them. Each operation has one equation for each
view. From those of a merge follows what a sequence of merges leaves: functions
and calls are those of the parts, in whatever order these arrive. Where a
function stands is said by the first graph that knows it.

The counter of calls also goes up when a call is taken in that is there already
(`Repeats.relationCount_eq`).
-/

namespace CodeAtlas

open List Dict

variable {P : PlainGraph → Prop} {g other : PlainGraph} (f : PlainFunction)
  (caller name callee : String)

/-- What is known about a function apart from its calls: file, line and further data. -/
def PlainFunction.place (f : PlainFunction) : Json × Json × Json := (f.file, f.line, f.metadata)

namespace PlainGraph

/-- The calls of a function. A name without an entry has none. -/
def callsOf (g : PlainGraph) (name : String) : List String :=
  ((g.functions.get? name).map (·.calls)).getD []

def callersOf (g : PlainGraph) (name : String) : List String :=
  ((g.functions.get? name).map (·.calledBy)).getD []

/-- What is known about the function of a name. -/
def place? (g : PlainGraph) (name : String) : Option (Json × Json × Json) :=
  (g.functions.get? name).map PlainFunction.place

/-- Each function stands once, under its name, and is counted. Both ends of a call are functions of
the graph and note it. -/
structure Mirrored (g : PlainGraph) : Prop where
  distinct : g.functions.keys.Nodup
  count_eq : g.functionCount = g.functions.keys.length
  named : Dict.All (fun key f => f.name = key) g.functions
  has_listed : ∀ name other, other ∈ g.callsOf name ∨ other ∈ g.callersOf name →
    g.functions.has other = true
  mem_iff : ∀ f c, c ∈ g.callsOf f ↔ f ∈ g.callersOf c

/-- A graph that is built up from the empty one. -/
inductive Built : PlainGraph → Prop where
  | empty : Built {}
  | addFunction {g : PlainGraph} (hg : Built g) (f : PlainFunction) : Built (g.addFunction f)
  | addCall {g : PlainGraph} (hg : Built g) (caller callee : String) :
      Built (g.addCall caller callee)
  | merge {g other : PlainGraph} (hg : Built g) (hother : Built other) : Built (g.merge other)

theorem isSome_place? : (g.place? name).isSome = g.functions.has name := by
  rw [place?, Option.isSome_map, Dict.has]

theorem has_of_mem_callsOf {f c : String} (h : c ∈ g.callsOf f) : g.functions.has f = true := by
  unfold callsOf at h
  rw [has_iff]
  cases hget : g.functions.get? f with
  | none => simp [hget] at h
  | some entry => exact ⟨entry, rfl⟩

theorem callsOf_of_get? {name : String} {entry : PlainFunction}
    (h : g.functions.get? name = some entry) : g.callsOf name = entry.calls := by
  simp [callsOf, h]

theorem mirrored_empty : Mirrored {} where
  distinct := nodup_nil
  count_eq := rfl
  named := all_nil _
  has_listed name other h := by simp [callsOf, callersOf] at h
  mem_iff f c := by simp [callsOf, callersOf]

/-! ### Functions -/

/-- A function comes in without calls and callers, and only under a new name. -/
theorem get?_addFunction :
    (g.addFunction f).functions.get? name =
      (g.functions.get? name).or
        (if name = f.name then some { f with calls := [], calledBy := [] } else none) := by
  unfold addFunction
  split
  · next hknown =>
      obtain ⟨entry, hentry⟩ := (has_iff _ _).1 hknown
      by_cases hname : name = f.name
      · simp [hname, hentry]
      · simp [hname]
  · next hnew =>
      have hnone := (has_eq_false_iff _ _).1 (Bool.not_eq_true _ ▸ hnew)
      rw [get?_set]
      by_cases hname : name = f.name
      · simp [hname, hnone]
      · simp [hname]

theorem place?_addFunction :
    (g.addFunction f).place? name =
      (g.place? name).or (if name = f.name then some f.place else none) := by
  rw [place?, get?_addFunction, Option.map_or, place?]
  split <;> rfl

theorem callsOf_addFunction : (g.addFunction f).callsOf name = g.callsOf name := by
  unfold callsOf
  rw [get?_addFunction]
  cases g.functions.get? name with
  | none => by_cases hname : name = f.name <;> simp [hname]
  | some entry => rfl

theorem callersOf_addFunction : (g.addFunction f).callersOf name = g.callersOf name := by
  unfold callersOf
  rw [get?_addFunction]
  cases g.functions.get? name with
  | none => by_cases hname : name = f.name <;> simp [hname]
  | some entry => rfl

theorem Mirrored.addFunction (hg : g.Mirrored) (f : PlainFunction) :
    (g.addFunction f).Mirrored where
  distinct := by
    unfold PlainGraph.addFunction
    split
    · exact hg.distinct
    · exact nodup_keys_set hg.distinct _ _
  count_eq := by
    unfold PlainGraph.addFunction
    split_ifs with hnew
    · exact hg.count_eq
    · have hkey : f.name ∉ g.functions.keys := by
        rwa [mem_keys_iff, ← has_iff]
      simp [keys_set, hkey, hg.count_eq]
  named := by
    unfold PlainGraph.addFunction
    split
    · exact hg.named
    · exact hg.named.set rfl
  has_listed name other h := by
    rw [callsOf_addFunction, callersOf_addFunction] at h
    rw [← isSome_place?, place?_addFunction, Option.isSome_or, isSome_place?,
      hg.has_listed name other h, Bool.true_or]
  mem_iff a b := by rw [callsOf_addFunction, callersOf_addFunction, hg.mem_iff]

/-! ### Calls -/

def noteCall (d : Dict PlainFunction) (caller callee : String) : Dict PlainFunction :=
  Dict.adjust d caller fun f => { f with calls := addNew f.calls callee }

def noteCaller (d : Dict PlainFunction) (caller callee : String) : Dict PlainFunction :=
  Dict.adjust d callee fun f => { f with calledBy := addNew f.calledBy caller }

theorem functions_addCall :
    (g.addCall caller callee).functions =
      if g.takesCall caller callee then
        noteCaller (noteCall g.functions caller callee) caller callee
      else g.functions := by
  unfold addCall
  split <;> rfl

theorem functionCount_addCall : (g.addCall caller callee).functionCount = g.functionCount := by
  unfold addCall
  split <;> rfl

theorem takesCall_iff :
    g.takesCall caller callee = true ↔
      g.functions.has caller = true ∧ g.functions.has callee = true := by
  rw [takesCall, Bool.and_eq_true]

@[simp] theorem keys_addCall (caller callee : String) :
    (g.addCall caller callee).functions.keys = g.functions.keys := by
  rw [functions_addCall]
  split
  · rw [noteCaller, noteCall, keys_adjust, keys_adjust]
  · rfl

theorem has_addCall : (g.addCall caller callee).functions.has name = g.functions.has name :=
  has_eq_of_keys_eq (keys_addCall caller callee) name

theorem takesCall_addCall (f c : String) :
    (g.addCall caller callee).takesCall f c = g.takesCall f c := by
  simp only [takesCall, has_addCall]

theorem map_get?_noteCall {β : Type} {view : PlainFunction → β}
    (hview : ∀ f calls, view { f with calls } = view f) (d : Dict PlainFunction) :
    ((noteCall d caller callee).get? name).map view = (d.get? name).map view :=
  map_get?_adjust d caller (fun f => hview f _) name

theorem map_get?_noteCaller {β : Type} {view : PlainFunction → β}
    (hview : ∀ f calledBy, view { f with calledBy } = view f) (d : Dict PlainFunction) :
    ((noteCaller d caller callee).get? name).map view = (d.get? name).map view :=
  map_get?_adjust d callee (fun f => hview f _) name

theorem place?_addCall : (g.addCall caller callee).place? name = g.place? name := by
  unfold place?
  rw [functions_addCall]
  split
  · rw [map_get?_noteCaller _ _ _ (fun _ _ => rfl), map_get?_noteCall _ _ _ (fun _ _ => rfl)]
  · rfl

theorem mem_callsOf_addCall (f c : String) :
    c ∈ (g.addCall caller callee).callsOf f ↔
      c ∈ g.callsOf f ∨ (f = caller ∧ c = callee) ∧ g.takesCall caller callee = true := by
  unfold callsOf
  rw [functions_addCall]
  split_ifs with htakes
  · obtain ⟨entry, hentry⟩ := (has_iff _ _).1 ((takesCall_iff _ _).1 htakes).1
    rw [map_get?_noteCaller _ _ _ (fun _ _ => rfl), noteCall, get?_adjust]
    by_cases hf : f = caller
    · simp [hf, hentry, htakes, mem_addNew]
    · simp [hf]
  · simp [htakes]

theorem mem_callersOf_addCall (f c : String) :
    f ∈ (g.addCall caller callee).callersOf c ↔
      f ∈ g.callersOf c ∨ (f = caller ∧ c = callee) ∧ g.takesCall caller callee = true := by
  unfold callersOf
  rw [functions_addCall]
  split_ifs with htakes
  · obtain ⟨entry, hentry⟩ := (has_iff _ _).1 ((takesCall_iff _ _).1 htakes).2
    have hswap : noteCaller (noteCall g.functions caller callee) caller callee =
        noteCall (noteCaller g.functions caller callee) caller callee :=
      adjust_comm _ _ _ _ _ fun _ => rfl
    rw [hswap, map_get?_noteCall _ _ _ (fun _ _ => rfl), noteCaller, get?_adjust]
    by_cases hc : c = callee
    · simp [hc, hentry, htakes, mem_addNew]
    · simp [hc]
  · simp [htakes]

theorem Mirrored.addCall (hg : g.Mirrored) (caller callee : String) :
    (g.addCall caller callee).Mirrored where
  distinct := by
    rw [keys_addCall]
    exact hg.distinct
  count_eq := by rw [keys_addCall, functionCount_addCall, hg.count_eq]
  named := by
    rw [functions_addCall]
    split
    · have hcall : Dict.All (fun key f => f.name = key) (noteCall g.functions caller callee) :=
        hg.named.adjust fun _ h => h
      exact hcall.adjust fun _ h => h
    · exact hg.named
  has_listed name other h := by
    rw [mem_callsOf_addCall, mem_callersOf_addCall, takesCall_iff] at h
    rw [has_addCall]
    rcases h with (h | ⟨⟨_, rfl⟩, hends⟩) | (h | ⟨⟨rfl, _⟩, hends⟩)
    · exact hg.has_listed name other (.inl h)
    · exact hends.2
    · exact hg.has_listed name other (.inr h)
    · exact hends.1
  mem_iff f c := by rw [mem_callsOf_addCall, mem_callersOf_addCall, hg.mem_iff]

/-! ### Merges -/

/-- The graph with the functions of a dictionary. -/
def addFunctions (g : PlainGraph) (d : Dict PlainFunction) : PlainGraph :=
  d.foldl (fun g (_, f) => g.addFunction f) g

/-- The graph with the calls between pairs of functions. -/
def addCalls (g : PlainGraph) (pairs : List (String × String)) : PlainGraph :=
  pairs.foldl (fun g (caller, callee) => g.addCall caller callee) g

def callPairs (d : Dict PlainFunction) : List (String × String) :=
  d.flatMap fun (name, f) => f.calls.map (name, ·)

theorem merge_eq (other : PlainGraph) :
    g.merge other = (g.addFunctions other.functions).addCalls (callPairs other.functions) := by
  unfold merge addCalls callPairs addFunctions
  rw [foldl_flatMap]
  simp only [foldl_map]

theorem addFunctions_induction (hstep : ∀ g f, P g → P (g.addFunction f)) (d : Dict PlainFunction)
    (hg : P g) : P (g.addFunctions d) :=
  foldlRecOn _ _ hg fun g hg entry _ => hstep g entry.2 hg

theorem addCalls_induction (hstep : ∀ g caller callee, P g → P (g.addCall caller callee))
    (pairs : List (String × String)) (hg : P g) : P (g.addCalls pairs) :=
  foldlRecOn _ _ hg fun g hg pair _ => hstep g pair.1 pair.2 hg

theorem callsOf_addFunctions (d : Dict PlainFunction) :
    (g.addFunctions d).callsOf name = g.callsOf name :=
  addFunctions_induction (P := fun g' => g'.callsOf name = g.callsOf name)
    (fun g' f h => by rw [callsOf_addFunction, h]) d rfl

theorem place?_addFunctions {d : Dict PlainFunction}
    (hd : Dict.All (fun key f => f.name = key) d) (g : PlainGraph) :
    (g.addFunctions d).place? name =
      (g.place? name).or ((d.get? name).map PlainFunction.place) := by
  induction d generalizing g with
  | nil => simp [addFunctions]
  | cons entry rest ih =>
    obtain ⟨key, f⟩ := entry
    have hname : f.name = key := hd (key, f) mem_cons_self
    have hrest := ih (fun entry hentry => hd entry (mem_cons_of_mem _ hentry))
      (g.addFunction f)
    have hcons : g.addFunctions ((key, f) :: rest) = (g.addFunction f).addFunctions rest := rfl
    rw [hcons, hrest, place?_addFunction, hname, Option.or_assoc, get?_cons]
    by_cases hkey : name = key <;> simp [hkey]

theorem place?_addCalls (pairs : List (String × String)) :
    (g.addCalls pairs).place? name = g.place? name :=
  addCalls_induction (P := fun g' => g'.place? name = g.place? name)
    (fun g' caller callee h => by rw [place?_addCall, h]) pairs rfl

theorem mem_callsOf_addCalls {pairs : List (String × String)}
    (hpairs : ∀ pair ∈ pairs, g.takesCall pair.1 pair.2 = true) (f c : String) :
    c ∈ (g.addCalls pairs).callsOf f ↔ c ∈ g.callsOf f ∨ (f, c) ∈ pairs := by
  induction pairs generalizing g with
  | nil => simp [addCalls]
  | cons pair rest ih =>
    obtain ⟨htakes, hrest⟩ := forall_mem_cons.1 hpairs
    have hcons : g.addCalls (pair :: rest) = (g.addCall pair.1 pair.2).addCalls rest := rfl
    rw [hcons, ih (by simpa only [takesCall_addCall] using hrest), mem_callsOf_addCall, htakes,
      mem_cons, Prod.ext_iff]
    simp only [and_true, or_assoc]

theorem mem_callPairs (hg : g.Mirrored) (f c : String) :
    (f, c) ∈ callPairs g.functions ↔ c ∈ g.callsOf f := by
  unfold callPairs
  rw [mem_flatMap]
  constructor
  · rintro ⟨⟨name, entry⟩, hentry, hpair⟩
    obtain ⟨called, hcalled, heq⟩ := mem_map.1 hpair
    cases heq
    rwa [callsOf_of_get? ((mem_iff_get? hg.distinct _ _).1 hentry)]
  · intro hc
    obtain ⟨entry, hentry⟩ := (has_iff _ _).1 (has_of_mem_callsOf hc)
    rw [callsOf_of_get? hentry] at hc
    exact ⟨(f, entry), mem_of_get? hentry, mem_map.2 ⟨c, hc, rfl⟩⟩

theorem Mirrored.merge (hg : g.Mirrored) (other : PlainGraph) : (g.merge other).Mirrored := by
  rw [merge_eq]
  refine addCalls_induction (fun _ _ _ h => h.addCall _ _) _ ?_
  exact addFunctions_induction (fun _ _ h => h.addFunction _) _ hg

section

variable (hother : other.Mirrored)
include hother

theorem place?_merge : (g.merge other).place? name = (g.place? name).or (other.place? name) := by
  rw [merge_eq, place?_addCalls, place?_addFunctions _ hother.named]
  rfl

theorem takesCall_addFunctions : ∀ pair ∈ callPairs other.functions,
    (g.addFunctions other.functions).takesCall pair.1 pair.2 = true := by
  have hknown : ∀ name, other.functions.has name = true →
      (g.addFunctions other.functions).functions.has name = true := by
    intro name hname
    rw [← isSome_place?] at hname ⊢
    rw [place?_addFunctions _ hother.named, Option.isSome_or]
    exact Bool.or_eq_true_iff.2 (.inr hname)
  rintro ⟨f, c⟩ hpair
  have hcall := (mem_callPairs hother f c).1 hpair
  exact (takesCall_iff _ _).2
    ⟨hknown f (has_of_mem_callsOf hcall), hknown c (hother.has_listed f c (.inl hcall))⟩

theorem mem_callsOf_merge (f c : String) :
    c ∈ (g.merge other).callsOf f ↔ c ∈ g.callsOf f ∨ c ∈ other.callsOf f := by
  rw [merge_eq, mem_callsOf_addCalls (takesCall_addFunctions hother), callsOf_addFunctions,
    mem_callPairs hother]

end

theorem Built.mirrored (hg : g.Built) : g.Mirrored := by
  induction hg with
  | empty => exact mirrored_empty
  | addFunction _ f ih => exact ih.addFunction f
  | addCall _ caller callee ih => exact ih.addCall caller callee
  | merge _ _ ih _ => exact ih.merge _

section

variable {parts : List PlainGraph}

theorem Built.foldl_merge (hg : g.Built) (hparts : ∀ part ∈ parts, part.Built) :
    (parts.foldl PlainGraph.merge g).Built :=
  foldlRecOn _ _ hg fun _ h part hpart => h.merge (hparts part hpart)

section

variable (hparts : ∀ part ∈ parts, part.Built)
include hparts

theorem mem_callsOf_foldl_merge (f c : String) :
    c ∈ (parts.foldl merge g).callsOf f ↔ ∃ part ∈ g :: parts, c ∈ part.callsOf f := by
  induction parts generalizing g with
  | nil => simp
  | cons part rest ih =>
    rw [forall_mem_cons] at hparts
    rw [foldl_cons, ih hparts.2]
    simp only [exists_mem_cons_iff, mem_callsOf_merge hparts.1.mirrored, or_assoc]

theorem place?_foldl_merge (name : String) :
    (parts.foldl merge g).place? name = (g :: parts).findSome? (·.place? name) := by
  induction parts generalizing g with
  | nil => simp
  | cons part rest ih =>
    rw [forall_mem_cons] at hparts
    rw [foldl_cons, ih hparts.2, findSome?_cons, place?_merge _ hparts.1.mirrored]
    cases hplace : g.place? name with
    | none => simp [hplace, findSome?_cons]
    | some p => simp [hplace]

theorem has_foldl_merge :
    (parts.foldl merge g).functions.has name = true ↔
      ∃ part ∈ g :: parts, part.functions.has name = true := by
  simp only [← isSome_place?, place?_foldl_merge hparts, findSome?_isSome_iff]

end

end

theorem foldlM_merge_plain (g : PlainGraph) (parts : List PlainGraph) :
    (parts.map AnyGraph.plain).foldlM AnyGraph.merge (.plain g) =
      .ok (.plain (parts.foldl merge g)) := by
  induction parts generalizing g with
  | nil => rfl
  | cons part rest ih => exact ih (g.merge part)

/-- Every graph that is built up is mirrored. Graphs that are put into it, in any order, give a
mirrored graph with the functions and the calls of all of them. What was known about a function
stays, and for a new one the first graph that knows it decides. -/
theorem built_merges {g : PlainGraph} (hg : g.Built) {parts order : List PlainGraph}
    (hparts : ∀ part ∈ parts, part.Built) (horder : order.Perm parts) :
    g.Mirrored ∧
      ∃ whole, (order.map AnyGraph.plain).foldlM AnyGraph.merge (.plain g) = .ok (.plain whole) ∧
        whole = order.foldl PlainGraph.merge g ∧ whole.Mirrored ∧
        (∀ name, whole.functions.has name = true ↔
          ∃ part ∈ g :: parts, part.functions.has name = true) ∧
        (∀ f c, c ∈ whole.callsOf f ↔ ∃ part ∈ g :: parts, c ∈ part.callsOf f) ∧
        ∀ name, whole.place? name = (g :: order).findSome? (·.place? name) := by
  have hbuilt : ∀ part ∈ order, part.Built := fun part hpart => hparts part (horder.mem_iff.1 hpart)
  have hmem : ∀ part, part ∈ g :: order ↔ part ∈ g :: parts := fun _ => (horder.cons g).mem_iff
  refine ⟨hg.mirrored, _, foldlM_merge_plain g order, rfl, (hg.foldl_merge hbuilt).mirrored,
    ?_, ?_, place?_foldl_merge hbuilt⟩
  · intro name
    simp only [has_foldl_merge _ hbuilt, hmem]
  · intro f c
    simp only [mem_callsOf_foldl_merge hbuilt, hmem]

/-- A graph with the given functions of a file and the calls between them. -/
def ofFile (file : String) (names : List String) (pairs : List (String × String)) : PlainGraph :=
  (addFunctions {} (names.map fun name => (name, { name, file := .str file }))).addCalls pairs

theorem built_ofFile (file : String) (names : List String) (pairs : List (String × String)) :
    (ofFile file names pairs).Built :=
  addCalls_induction (fun _ _ _ h => h.addCall _ _) _
    (addFunctions_induction (fun _ _ h => h.addFunction _) _ .empty)

/-- A file where `log` is called by `run`. -/
def runFile : PlainGraph := ofFile "run.c" ["log", "run"] [("run", "log")]

/-- A file where `log` is called by `stop`. -/
def stopFile : PlainGraph := ofFile "stop.c" ["log", "stop"] [("stop", "log")]

/-- Two files with one function in common, put together in the other order. -/
theorem built_merges_sharedLog :
    ∃ whole, whole = [stopFile, runFile].foldl PlainGraph.merge {} ∧ whole.Mirrored ∧
      whole.functionCount = 3 ∧ "log" ∈ whole.callsOf "run" ∧ "log" ∈ whole.callsOf "stop" ∧
      whole.place? "log" = some (.str "stop.c", .null, .obj []) := by
  have hparts : ∀ part ∈ [runFile, stopFile], part.Built := by
    simp [runFile, stopFile, built_ofFile]
  obtain ⟨_, whole, _, hwhole, hmirrored, _, hcalls, hplace⟩ :=
    built_merges .empty hparts (List.Perm.swap runFile stopFile [])
  refine ⟨whole, hwhole, hmirrored, ?_, (hcalls _ _).2 ?_, (hcalls _ _).2 ?_, ?_⟩
  · rw [hwhole]
    decide +kernel
  · exact ⟨runFile, by simp, by decide +kernel⟩
  · exact ⟨stopFile, by simp, by decide +kernel⟩
  · rw [hplace]
    rfl

/-! ### Counting calls -/

/-- How many calls the functions of a graph list. -/
def edgeCount (g : PlainGraph) : Nat := (g.functions.map fun (_, f) => f.calls.length).sum

/-- The graph is built up from the empty one, and `n` of the calls taken in on the way, those of
merged graphs included, were there already. -/
inductive Repeats : PlainGraph → Nat → Prop where
  | empty : Repeats {} 0
  | addFunction {g : PlainGraph} {n : Nat} (hg : Repeats g n) (f : PlainFunction) :
      Repeats (g.addFunction f) n
  | addCall {g : PlainGraph} {n : Nat} (hg : Repeats g n) (caller callee : String) :
      Repeats (g.addCall caller callee) (if callee ∈ g.callsOf caller then n + 1 else n)
  | merge {g other : PlainGraph} {n m : Nat} (hg : Repeats g n) (hother : Repeats other m) :
      Repeats (g.merge other)
        (n + (callPairs other.functions).countP fun pair => pair.2 ∈ g.callsOf pair.1)

theorem Repeats.built {n : Nat} (h : g.Repeats n) : g.Built := by
  induction h with
  | empty => exact .empty
  | addFunction _ f ih => exact ih.addFunction f
  | addCall _ caller callee ih => exact ih.addCall caller callee
  | merge _ _ ih ihother => exact ih.merge ihother

theorem Built.exists_repeats (h : g.Built) : ∃ n, g.Repeats n := by
  induction h with
  | empty => exact ⟨0, .empty⟩
  | addFunction _ f ih => exact ih.imp fun _ hn => hn.addFunction f
  | addCall _ caller callee ih =>
    obtain ⟨n, hn⟩ := ih
    exact ⟨_, hn.addCall caller callee⟩
  | merge _ _ ih ihother =>
    obtain ⟨n, hn⟩ := ih
    obtain ⟨m, hm⟩ := ihother
    exact ⟨_, hn.merge hm⟩

theorem takesCall_of_mem_callsOf (hg : g.Mirrored) {caller callee : String}
    (h : callee ∈ g.callsOf caller) : g.takesCall caller callee = true :=
  (takesCall_iff _ _).2 ⟨has_of_mem_callsOf h, hg.has_listed caller callee (.inl h)⟩

theorem nodup_callsOf_addCall (hg : (g.callsOf name).Nodup) :
    ((g.addCall caller callee).callsOf name).Nodup := by
  unfold callsOf at hg ⊢
  rw [functions_addCall]
  split
  · rw [map_get?_noteCaller _ _ _ (fun _ _ => rfl), noteCall, get?_adjust]
    split
    · cases hentry : g.functions.get? name with
      | none => exact nodup_nil
      | some entry =>
        rw [hentry] at hg
        exact nodup_addNew hg callee
    · exact hg
  · exact hg

theorem Built.nodup_callsOf (h : g.Built) (name : String) : (g.callsOf name).Nodup := by
  induction h with
  | empty => exact nodup_nil
  | addFunction _ f ih => rwa [callsOf_addFunction]
  | addCall _ caller callee ih => exact nodup_callsOf_addCall _ _ _ ih
  | @merge g other _ _ ih _ =>
    rw [merge_eq]
    refine addCalls_induction (P := fun g' => (g'.callsOf name).Nodup)
      (fun _ caller callee => nodup_callsOf_addCall caller name callee) _ ?_
    rwa [callsOf_addFunctions]

theorem Built.nodup_calls (h : g.Built) {entry : String × PlainFunction}
    (hentry : entry ∈ g.functions) : entry.2.calls.Nodup := by
  rw [← callsOf_of_get? ((mem_iff_get? h.mirrored.distinct _ _).1 hentry)]
  exact h.nodup_callsOf _

theorem edgeCount_eq : g.edgeCount = (callPairs g.functions).length := by
  rw [edgeCount, callPairs, length_flatMap]
  simp

theorem Built.nodup_callPairs (h : g.Built) : (callPairs g.functions).Nodup := by
  refine nodup_flatMap.2 ⟨fun entry hentry => ?_, ?_⟩
  · exact (h.nodup_calls hentry).map fun _ _ heq => (Prod.mk.inj heq).2
  · refine (pairwise_map.1 h.mirrored.distinct).imp fun {a b} hne => ?_
    rintro ⟨f, c⟩ ha hb
    obtain ⟨_, _, heq⟩ := mem_map.1 ha
    obtain ⟨_, _, heq'⟩ := mem_map.1 hb
    exact hne ((Prod.mk.inj heq).1.trans (Prod.mk.inj heq').1.symm)

/-- A graph with the calls of another one and some more has as many more. -/
theorem Built.edgeCount_eq_add {g' : PlainGraph} (hg : g.Built) (hg' : g'.Built)
    {new : List (String × String)} (hnew : new.Nodup)
    (hfresh : ∀ pair ∈ new, pair.2 ∉ g.callsOf pair.1)
    (hmem : ∀ f c, c ∈ g'.callsOf f ↔ c ∈ g.callsOf f ∨ (f, c) ∈ new) :
    g'.edgeCount = g.edgeCount + new.length := by
  have hdisjoint : (callPairs g.functions).Disjoint new := by
    rintro ⟨f, c⟩ hpair hpair'
    exact hfresh _ hpair' ((mem_callPairs hg.mirrored f c).1 hpair)
  have hperm : (callPairs g'.functions).Perm (callPairs g.functions ++ new) := by
    refine (perm_ext_iff_of_nodup hg'.nodup_callPairs
      (hg.nodup_callPairs.append hnew hdisjoint)).2 ?_
    rintro ⟨f, c⟩
    rw [mem_callPairs hg'.mirrored, mem_append, mem_callPairs hg.mirrored, hmem]
  rw [edgeCount_eq, edgeCount_eq, hperm.length_eq, length_append]

theorem relationCount_addFunction : (g.addFunction f).relationCount = g.relationCount := by
  unfold addFunction
  split <;> rfl

theorem relationCount_addCall : (g.addCall caller callee).relationCount =
    if g.takesCall caller callee then g.relationCount + 1 else g.relationCount := by
  unfold addCall
  split <;> rfl

theorem relationCount_addCalls {pairs : List (String × String)}
    (hpairs : ∀ pair ∈ pairs, g.takesCall pair.1 pair.2 = true) :
    (g.addCalls pairs).relationCount = g.relationCount + pairs.length := by
  induction pairs generalizing g with
  | nil => rfl
  | cons pair rest ih =>
    obtain ⟨htakes, hrest⟩ := forall_mem_cons.1 hpairs
    have hcons : g.addCalls (pair :: rest) = (g.addCall pair.1 pair.2).addCalls rest := rfl
    rw [hcons, ih (by simpa only [takesCall_addCall] using hrest), relationCount_addCall,
      if_pos htakes, length_cons]
    omega

theorem relationCount_merge (hother : other.Mirrored) :
    (g.merge other).relationCount = g.relationCount + (callPairs other.functions).length := by
  rw [merge_eq, relationCount_addCalls (takesCall_addFunctions hother)]
  congr 1
  exact addFunctions_induction (P := fun g' => g'.relationCount = g.relationCount)
    (fun g' f h => (relationCount_addFunction f).trans h) _ rfl

/-- The counter is ahead of the calls by those that were taken in again. -/
theorem Repeats.relationCount_eq {n : Nat} (h : g.Repeats n) :
    g.relationCount = g.edgeCount + n := by
  induction h with
  | empty => rfl
  | @addFunction g n hg f ih =>
    have hedges := hg.built.edgeCount_eq_add (hg.built.addFunction f) nodup_nil (by simp)
      (fun f c => by simp [callsOf_addFunction])
    rw [relationCount_addFunction, hedges, ih, length_nil, Nat.add_zero]
  | @addCall g n hg caller callee ih =>
    have hmem := mem_callsOf_addCall caller callee (g := g)
    rw [relationCount_addCall]
    by_cases hknown : callee ∈ g.callsOf caller
    · have htakes := takesCall_of_mem_callsOf hg.built.mirrored hknown
      have hedges := hg.built.edgeCount_eq_add (hg.built.addCall caller callee) nodup_nil
        (by simp) (fun f c => by rw [hmem]; grind)
      rw [if_pos hknown, if_pos htakes, hedges, ih, length_nil]
      omega
    · by_cases htakes : g.takesCall caller callee = true
      · have hedges := hg.built.edgeCount_eq_add (hg.built.addCall caller callee)
          (nodup_singleton (caller, callee)) (by simpa using hknown)
          (fun f c => by simp [hmem, htakes])
        rw [if_neg hknown, if_pos htakes, hedges, ih, length_singleton]
        omega
      · have hedges := hg.built.edgeCount_eq_add (hg.built.addCall caller callee) nodup_nil
          (by simp) (fun f c => by simp [hmem, htakes])
        rw [if_neg hknown, if_neg htakes, hedges, ih, length_nil, Nat.add_zero]
  | @merge g other n m hg hother ih _ =>
    have hmirrored := hother.built.mirrored
    have hnew := hother.built.nodup_callPairs.filter fun pair => ¬ pair.2 ∈ g.callsOf pair.1
    have hedges := hg.built.edgeCount_eq_add (hg.built.merge hother.built) hnew (by simp)
      (fun f c => by
        rw [mem_callsOf_merge hmirrored, mem_filter, mem_callPairs hmirrored]
        by_cases h : c ∈ g.callsOf f <;> simp [h])
    have hsplit := length_eq_countP_add_countP (fun pair => decide (pair.2 ∈ g.callsOf pair.1))
      (l := callPairs other.functions)
    rw [relationCount_merge hmirrored, hedges, ih, ← countP_eq_length_filter]
    simp only [decide_eq_true_eq] at hsplit
    omega

/-- The counter of a graph that is built up is the number of its calls, each function's once each,
and of those that were taken in again. So it is right if and only if none was. -/
theorem relationCount_eq_edgeCount_iff {g : PlainGraph} (hg : g.Built) :
    (∀ entry ∈ g.functions, entry.2.calls.Nodup) ∧
      (∃ n, g.Repeats n ∧ g.relationCount = g.edgeCount + n) ∧
      (g.relationCount = g.edgeCount ↔ g.Repeats 0) := by
  obtain ⟨n, hn⟩ := hg.exists_repeats
  refine ⟨fun entry => hg.nodup_calls, ⟨n, hn, hn.relationCount_eq⟩, fun h => ?_, fun h => ?_⟩
  · obtain rfl : n = 0 := by
      have hcount := hn.relationCount_eq
      omega
    exact hn
  · exact h.relationCount_eq

theorem relationCount_runFile :
    runFile.relationCount = 1 ∧ runFile.Repeats 0 := by
  have h : runFile.relationCount = runFile.edgeCount := by decide +kernel
  exact ⟨by decide +kernel, (relationCount_eq_edgeCount_iff (built_ofFile _ _ _)).2.2.1 h⟩

/-- A function that is said twice to call itself has one call, but two are counted. -/
theorem relationCount_of_call_again :
    (ofFile "f.c" ["f"] [("f", "f"), ("f", "f")]).Built ∧
      (ofFile "f.c" ["f"] [("f", "f"), ("f", "f")]).relationCount = 2 ∧
      (ofFile "f.c" ["f"] [("f", "f"), ("f", "f")]).edgeCount = 1 :=
  ⟨built_ofFile _ _ _, by decide +kernel, by decide +kernel⟩

end PlainGraph

end CodeAtlas

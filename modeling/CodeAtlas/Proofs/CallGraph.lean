import CodeAtlas.CallGraph
import CodeAtlas.Proofs.Dict

/-!
# Calls between functions

A call is noted twice: the caller lists the function called, and this one lists
its caller. `Functions.Calls` and `Functions.CalledBy` read the two sides, and
each change of an entry has one equation for each of them.

A graph without repetitions (`CallGraph.Unrepeated`) has one entry for each
function, under its name, and no list of it repeats an item. It is closed if it
knows all that is called (`CallGraph.Closed`), and mirrored if callers and
callees note the same calls (`CallGraph.Mirrored`).
-/

namespace CodeAtlas.Functions

open Dict

variable {fs : Functions} {key : String}

/-- The entry of `f` lists a call of `c`. -/
def Calls (fs : Functions) (f c : String) : Prop :=
  ∃ entry, fs.get? f = some entry ∧ c ∈ entry.calls

/-- The entry of `c` lists `f` as a caller. -/
def CalledBy (fs : Functions) (c f : String) : Prop :=
  ∃ entry, fs.get? c = some entry ∧ f ∈ entry.calledBy

theorem Calls.has {f c : String} (h : fs.Calls f c) : fs.has f = true := by
  obtain ⟨entry, hentry, _⟩ := h
  exact (has_iff _ _).2 ⟨entry, hentry⟩

theorem Calls.mem_keys {f c : String} (h : fs.Calls f c) : f ∈ fs.keys :=
  (mem_keys_iff _ _).2 ((has_iff _ _).1 h.has)

theorem calls_adjust (fs : Functions) (key : String) (change : Function → Function)
    (f c : String) :
    Calls (Dict.adjust fs key change) f c ↔
      ∃ entry, fs.get? f = some entry ∧ c ∈ (if f = key then change entry else entry).calls := by
  unfold Calls
  rw [get?_adjust]
  by_cases hf : f = key
  · simp [hf]
  · simp [hf]

theorem calledBy_adjust (fs : Functions) (key : String) (change : Function → Function)
    (c f : String) :
    CalledBy (Dict.adjust fs key change) c f ↔
      ∃ entry, fs.get? c = some entry ∧ f ∈ (if c = key then change entry else entry).calledBy := by
  unfold CalledBy
  rw [get?_adjust]
  by_cases hc : c = key
  · simp [hc]
  · simp [hc]

theorem calls_adjust_of_eq (fs : Functions) (key : String) {change : Function → Function}
    (hchange : ∀ entry, (change entry).calls = entry.calls) (f c : String) :
    Calls (Dict.adjust fs key change) f c ↔ fs.Calls f c := by
  rw [calls_adjust]
  by_cases hf : f = key
  · simp [hf, hchange, Calls]
  · simp [hf, Calls]

theorem calledBy_adjust_of_eq (fs : Functions) (key : String) {change : Function → Function}
    (hchange : ∀ entry, (change entry).calledBy = entry.calledBy) (c f : String) :
    CalledBy (Dict.adjust fs key change) c f ↔ fs.CalledBy c f := by
  rw [calledBy_adjust]
  by_cases hc : c = key
  · simp [hc, hchange, CalledBy]
  · simp [hc, CalledBy]

theorem calledBy_adjust_addCaller (hkey : fs.has key = true) (caller c f : String) :
    CalledBy (Dict.adjust fs key (·.addCaller caller)) c f ↔
      fs.CalledBy c f ∨ c = key ∧ f = caller := by
  obtain ⟨entry, hentry⟩ := (has_iff _ _).1 hkey
  rw [calledBy_adjust]
  by_cases hc : c = key
  · simp [hc, hentry, Function.addCaller, mem_addNew, CalledBy]
  · simp [hc, CalledBy]

theorem calls_adjust_addCall (hkey : fs.has key = true) (callee f c : String) :
    Calls (Dict.adjust fs key (·.addCall callee)) f c ↔ fs.Calls f c ∨ f = key ∧ c = callee := by
  obtain ⟨entry, hentry⟩ := (has_iff _ _).1 hkey
  rw [calls_adjust]
  by_cases hf : f = key
  · simp [hf, hentry, Function.addCall, mem_addNew, Calls]
  · simp [hf, Calls]

/-- An entry written anew keeps all calls, if it keeps those of the entry that it replaces. -/
theorem calls_set_of_calls {entry : Function} (hentry : ∀ c, c ∈ entry.calls ↔ fs.Calls key c)
    (f c : String) : Calls (Dict.set fs key entry) f c ↔ fs.Calls f c := by
  by_cases hf : f = key
  · subst hf
    rw [← hentry, Calls, get?_set, if_pos rfl]
    simp
  · rw [Calls, get?_set, if_neg hf, Calls]

end CodeAtlas.Functions

namespace CodeAtlas

open Dict

namespace CallGraph

variable {g : CallGraph}

def Orderly (name : String) (f : Function) : Prop :=
  f.name = name ∧ f.calls.Nodup ∧ f.calledBy.Nodup

instance (name : String) (f : Function) : Decidable (Orderly name f) :=
  inferInstanceAs (Decidable (f.name = name ∧ f.calls.Nodup ∧ f.calledBy.Nodup))

/-- A graph without repetitions. -/
structure Unrepeated (g : CallGraph) : Prop where
  distinct : g.functions.keys.Nodup
  orderly : Dict.All Orderly g.functions
  missing : g.missing.Nodup

theorem unrepeated_empty : Unrepeated {} := ⟨List.nodup_nil, all_nil _, List.nodup_nil⟩

theorem Unrepeated.adjust (hg : g.Unrepeated) {key : String} {change : Function → Function}
    (hchange : ∀ f, Orderly key f → Orderly key (change f)) :
    (g.adjust key change).Unrepeated where
  distinct := by
    rw [CallGraph.adjust, keys_adjust]
    exact hg.distinct
  orderly := Dict.All.adjust hg.orderly hchange
  missing := hg.missing

/-- Whatever is called is a function or known to be missing. -/
def Closed (g : CallGraph) : Prop :=
  ∀ f c, g.functions.Calls f c → g.functions.has c = true ∨ c ∈ g.missing

/-- Between functions, calls and callers agree. -/
def Mirrored (g : CallGraph) : Prop :=
  ∀ f c, g.functions.has f = true → g.functions.has c = true →
    (g.functions.Calls f c ↔ g.functions.CalledBy c f)

theorem closed_of_entries
    (hentries : ∀ entry ∈ g.functions, ∀ c ∈ entry.2.calls,
      g.functions.has c = true ∨ c ∈ g.missing) :
    g.Closed := by
  rintro f c ⟨entry, hentry, hc⟩
  exact hentries (f, entry) (mem_of_get? hentry) c hc

theorem mirrored_of_entries
    (hentries : ∀ caller ∈ g.functions, ∀ called ∈ g.functions,
      (called.1 ∈ caller.2.calls ↔ caller.1 ∈ called.2.calledBy)) :
    g.Mirrored := by
  intro f c hf hc
  obtain ⟨caller, hcaller⟩ := (has_iff _ _).1 hf
  obtain ⟨called, hcalled⟩ := (has_iff _ _).1 hc
  have hiff := hentries (f, caller) (mem_of_get? hcaller) (c, called)
    (mem_of_get? hcalled)
  simpa [Functions.Calls, Functions.CalledBy, hcaller, hcalled] using hiff

end CallGraph

end CodeAtlas

import CodeAtlas.Dot
import CodeAtlas.Proofs.CallGraph

/-!
# The graph of boxes and arrows

The arrows are entered after all boxes, so the functions are known by then and
no arrow changes which names they are. `foldl_addArrow` describes the outcome
without a run: every function lists the names that its arrows lead to and come
from, and the targets that are no functions are missing.

`parse_partitions` reads off what holds for every text: a name that is called is
a function or missing, and never both.
-/

namespace CodeAtlas.Dot

open List Dict

variable (g : CallGraph) (as : List (String × String)) (a : String × String)

def box? (node : String × String) : Option Function :=
  if Text.occursIn "shape=box" node.2 then
    some { name := node.1, filePath := (place node.2).1, lineNumber := (place node.2).2 }
  else none

theorem nodes_eq (text : String) : nodes text =
    ((nodePattern.findAll text).map fun m => (m.group 1, m.group 2)).filterMap box? := by
  rw [filterMap_map]
  rfl

theorem box?_eq_some {node : String × String} {f : Function} (h : box? node = some f) :
    Text.occursIn "shape=box" node.2 = true ∧ f.name = node.1 ∧ f.calls = [] ∧ f.calledBy = [] := by
  unfold box? at h
  split at h
  · next hbox =>
      obtain rfl := Option.some.inj h
      exact ⟨hbox, rfl, rfl, rfl⟩
  · exact absurd h (by simp)

/-- The names that the arrows of a name lead to. -/
def callees (as : List (String × String)) (name : String) : List String :=
  (as.filter (·.1 == name)).map (·.2)

/-- The names that arrows lead to a name from. -/
def callers (as : List (String × String)) (name : String) : List String :=
  (as.filter (·.2 == name)).map (·.1)

theorem mem_callees {as : List (String × String)} {f c : String} :
    c ∈ callees as f ↔ (f, c) ∈ as := by
  simp [callees]

theorem mem_callers {as : List (String × String)} {c f : String} :
    f ∈ callers as c ↔ (f, c) ∈ as := by
  simp [callers]

def withArrows (as : List (String × String)) (entry : String × Function) : String × Function :=
  (entry.1, { entry.2 with
    calls := addAllNew entry.2.calls (callees as entry.1)
    calledBy := addAllNew entry.2.calledBy (callers as entry.1) })

theorem withArrows_cons (entry : String × Function) :
    withArrows (a :: as) entry = withArrows as (withArrows [a] entry) := by
  have hcallees : callees (a :: as) entry.1 = callees [a] entry.1 ++ callees as entry.1 := by
    rw [callees, callees, callees, ← map_append, ← filter_append, singleton_append]
  have hcallers : callers (a :: as) entry.1 = callers [a] entry.1 ++ callers as entry.1 := by
    rw [callers, callers, callers, ← map_append, ← filter_append, singleton_append]
  simp only [withArrows, hcallees, hcallers, addAllNew_append]

theorem keys_map_withArrows (fs : Functions) : Dict.keys (fs.map (withArrows as)) = fs.keys := by
  simp [Dict.keys, withArrows]

theorem get?_map_withArrows (fs : Functions) (key : String) :
    Dict.get? (fs.map (withArrows as)) key =
      (fs.get? key).map fun f => (withArrows as (key, f)).2 := by
  induction fs with
  | nil => rfl
  | cons entry rest ih =>
    obtain ⟨k, f⟩ := entry
    rw [map_cons, withArrows, get?_cons, get?_cons, ih]
    by_cases hkey : key = k <;> simp [hkey, withArrows]

theorem functions_addArrow : (addArrow g a).functions = g.functions.map (withArrows [a]) := by
  have hcall : Dict.adjust g.functions a.1 (·.addCall a.2) = g.functions.map fun entry =>
      (entry.1, { entry.2 with calls := addAllNew entry.2.calls (callees [a] entry.1) }) := by
    apply map_congr_left
    rintro ⟨k, f⟩ _
    by_cases hk : k = a.1
    · simp [hk, callees, addAllNew, Function.addCall]
    · have hk' : ¬ a.1 = k := fun h => hk h.symm
      simp [hk, hk', callees, addAllNew]
  unfold addArrow
  simp only [CallGraph.adjust, has_adjust]
  split_ifs with hhas
  · rw [hcall, Dict.adjust, map_map]
    apply map_congr_left
    rintro ⟨k, f⟩ _
    by_cases hk : k = a.2
    · simp [hk, withArrows, callers, addAllNew, Function.addCaller]
    · have hk' : ¬ a.2 = k := fun h => hk h.symm
      simp [hk, hk', withArrows, callers, addAllNew]
  · -- no entry stands at the end of the arrow
    rw [CallGraph.addMissing, hcall]
    apply map_congr_left
    rintro ⟨k, f⟩ hmem
    have hk : ¬ a.2 = k := by
      rintro rfl
      exact hhas ((has_iff _ _).2 ((mem_keys_iff _ _).1 (mem_map_of_mem hmem)))
    simp [hk, withArrows, callers, addAllNew]

theorem missing_addArrow :
    (addArrow g a).missing = addAllNew g.missing ([a.2].filter (!g.functions.has ·)) := by
  unfold addArrow
  simp only [CallGraph.adjust, has_adjust]
  cases hhas : g.functions.has a.2 <;> simp [hhas, CallGraph.addMissing, addAllNew]

theorem foldl_addArrow :
    as.foldl addArrow g =
      { functions := g.functions.map (withArrows as)
        missing := addAllNew g.missing ((as.map (·.2)).filter (!g.functions.has ·)) } := by
  induction as generalizing g with
  | nil =>
    have hnone : withArrows [] = id := rfl
    simp [hnone, addAllNew]
  | cons a rest ih =>
    have hhas : ∀ key, Dict.has (g.functions.map (withArrows [a])) key = g.functions.has key :=
      has_eq_of_keys_eq (keys_map_withArrows [a] g.functions)
    have hsplit : ((a :: rest).map (·.2)).filter (!g.functions.has ·) =
        [a.2].filter (!g.functions.has ·) ++ (rest.map (·.2)).filter (!g.functions.has ·) := by
      rw [← filter_append]
      rfl
    rw [foldl_cons, ih, functions_addArrow, missing_addArrow, map_map, hsplit, addAllNew_append]
    simp only [hhas]
    congr 1
    apply map_congr_left
    intro entry _
    rw [withArrows_cons]
    rfl

/-! ### Entering boxes -/

def IsBare (name : String) (f : Function) : Prop :=
  f.name = name ∧ f.calls = [] ∧ f.calledBy = []

/-- The graph of boxes has the functions that they name, and these have no calls yet. -/
structure OfBoxes (fs : List Function) (g : CallGraph) : Prop where
  distinct : g.functions.keys.Nodup
  bare : Dict.All IsBare g.functions
  missing : g.missing = []
  mem_keys : ∀ key, key ∈ g.functions.keys ↔ ∃ f ∈ fs, f.name = key

theorem ofBoxes_foldl {fs : List Function} (hfs : ∀ f ∈ fs, f.calls = [] ∧ f.calledBy = []) :
    OfBoxes fs (fs.foldl CallGraph.addFunction {}) := by
  induction fs using reverseRecOn with
  | nil => exact ⟨nodup_nil, all_nil _, rfl, by simp [Dict.keys]⟩
  | append_singleton rest f ih =>
    have hrest := ih fun f' hf' => hfs f' (mem_append_left _ hf')
    rw [foldl_append, foldl_cons, foldl_nil]
    refine ⟨nodup_keys_set hrest.distinct _ _, ?_, hrest.missing, fun key => ?_⟩
    · exact hrest.bare.set ⟨rfl, hfs f (by simp)⟩
    · rw [CallGraph.addFunction, mem_keys_iff, ← has_iff, has_set, has_iff,
        ← mem_keys_iff, hrest.mem_keys]
      simp only [mem_append, mem_singleton, or_and_right, exists_or, exists_eq_left]
      rw [or_comm, eq_comm (a := key)]

/-! ### The whole graph -/

section

variable (text : String)

theorem ofBoxes_nodes : OfBoxes (nodes text) ((nodes text).foldl CallGraph.addFunction {}) := by
  apply ofBoxes_foldl
  intro f hf
  rw [nodes_eq, mem_filterMap] at hf
  obtain ⟨node, _, hnode⟩ := hf
  exact (box?_eq_some hnode).2.2

theorem keys_parse : (parse text).functions.keys =
    ((nodes text).foldl CallGraph.addFunction {}).functions.keys := by
  rw [parse, foldl_addArrow, keys_map_withArrows]

theorem mem_keys_parse (key : String) :
    key ∈ (parse text).functions.keys ↔ ∃ f ∈ nodes text, f.name = key := by
  rw [keys_parse, (ofBoxes_nodes text).mem_keys]

theorem get?_parse {key : String} {f : Function} (h : (parse text).functions.get? key = some f) :
    f.name = key ∧ f.calls = (callees (arrows text) key).eraseDups ∧
      f.calledBy = (callers (arrows text) key).eraseDups := by
  rw [parse, foldl_addArrow, get?_map_withArrows] at h
  obtain ⟨f₀, hf₀, rfl⟩ := Option.map_eq_some_iff.1 h
  obtain ⟨hname, hcalls, hcalledBy⟩ := (ofBoxes_nodes text).bare (key, f₀) (mem_of_get? hf₀)
  simp only at hname hcalls hcalledBy
  refine ⟨hname, ?_, ?_⟩ <;> simp [withArrows, hcalls, hcalledBy, addAllNew_nil]

theorem calls_parse (f c : String) :
    (parse text).functions.Calls f c ↔ f ∈ (parse text).functions.keys ∧ (f, c) ∈ arrows text := by
  rw [Functions.Calls, mem_keys_iff]
  constructor
  · rintro ⟨entry, hentry, hc⟩
    rw [(get?_parse text hentry).2.1, mem_eraseDups, mem_callees] at hc
    exact ⟨⟨entry, hentry⟩, hc⟩
  · rintro ⟨⟨entry, hentry⟩, hc⟩
    refine ⟨entry, hentry, ?_⟩
    rwa [(get?_parse text hentry).2.1, mem_eraseDups, mem_callees]

theorem calledBy_parse (c f : String) :
    (parse text).functions.CalledBy c f ↔
      c ∈ (parse text).functions.keys ∧ (f, c) ∈ arrows text := by
  rw [Functions.CalledBy, mem_keys_iff]
  constructor
  · rintro ⟨entry, hentry, hc⟩
    rw [(get?_parse text hentry).2.2, mem_eraseDups, mem_callers] at hc
    exact ⟨⟨entry, hentry⟩, hc⟩
  · rintro ⟨⟨entry, hentry⟩, hc⟩
    refine ⟨entry, hentry, ?_⟩
    rwa [(get?_parse text hentry).2.2, mem_eraseDups, mem_callers]

theorem missing_parse : (parse text).missing =
    (((arrows text).map (·.2)).filter (!(parse text).functions.has ·)).eraseDups := by
  have hhas := has_eq_of_keys_eq (keys_parse text)
  simp only [hhas]
  rw [parse, foldl_addArrow, (ofBoxes_nodes text).missing, addAllNew_nil]

theorem mem_missing_parse (name : String) :
    name ∈ (parse text).missing ↔
      (∃ f, (f, name) ∈ arrows text) ∧ name ∉ (parse text).functions.keys := by
  rw [missing_parse, mem_eraseDups, mem_filter, mem_keys_iff, ← has_iff]
  simp

theorem nodup_keys_parse : (parse text).functions.keys.Nodup := by
  rw [keys_parse]
  exact (ofBoxes_nodes text).distinct

theorem unrepeated_parse : (parse text).Unrepeated where
  distinct := nodup_keys_parse text
  orderly := by
    rintro ⟨key, f⟩ hmem
    obtain ⟨hname, hcalls, hcalledBy⟩ :=
      get?_parse text ((mem_iff_get? (nodup_keys_parse text) key f).1 hmem)
    exact ⟨hname, hcalls ▸ nodup_eraseDups _, hcalledBy ▸ nodup_eraseDups _⟩
  missing := by
    rw [missing_parse]
    exact nodup_eraseDups _

/-- Whatever a drawing says, its functions are the boxes and list the arrows at them. A name that is
called is either a function or missing, the two have nothing in common, and between functions calls
and callers agree. -/
theorem parse_partitions :
    (parse text).Unrepeated ∧
      (∀ key, key ∈ (parse text).functions.keys ↔ ∃ f ∈ nodes text, f.name = key) ∧
      (∀ f c, (parse text).functions.Calls f c ↔
        f ∈ (parse text).functions.keys ∧ (f, c) ∈ arrows text) ∧
      (∀ f c, (parse text).functions.Calls f c →
        Xor (c ∈ (parse text).functions.keys) (c ∈ (parse text).missing)) ∧
      (∀ name, name ∈ (parse text).functions.keys → name ∉ (parse text).missing) ∧
      (parse text).Mirrored := by
  have hdisjoint : ∀ name, name ∈ (parse text).functions.keys → name ∉ (parse text).missing :=
    fun name hkey hmissing => ((mem_missing_parse text name).1 hmissing).2 hkey
  refine ⟨unrepeated_parse text, mem_keys_parse text, calls_parse text, fun f c hcall => ?_,
    hdisjoint, fun f c hf hc => ?_⟩
  · have harrow := ((calls_parse text f c).1 hcall).2
    by_cases hkey : c ∈ (parse text).functions.keys
    · exact .inl ⟨hkey, hdisjoint c hkey⟩
    · exact .inr ⟨(mem_missing_parse text c).2 ⟨⟨f, harrow⟩, hkey⟩, hkey⟩
  · rw [Dict.has_iff, ← Dict.mem_keys_iff] at hf hc
    rw [calls_parse, calledBy_parse]
    simp [hf, hc]

end

end CodeAtlas.Dot

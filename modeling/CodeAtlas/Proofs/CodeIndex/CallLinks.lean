import CodeAtlas.CodeIndex.Basic
import CodeAtlas.Proofs.Dict

/-!
# Links written at both ends

A table of links has an entry for every function that was read and for every
name that one of them calls. Entries are made from either side, names repeat,
and nothing is left out, so the lists grow with every call.

`links_ofCalls` reads the table off the calls: the functions called are those of
all definitions of the name, one after the other, and a caller stands once for
each of its calls. A call is therefore listed equally often at both of its ends
(`Balanced`). The names called may be any, also none for a function that could
not be read.
-/

namespace CodeAtlas.LinkTable

open List

variable (t : LinkTable) (calls : List (String × List String)) (caller : String)
  (callees : List String) (name : String)

/-- Every call is listed equally often at both of its ends, and both ends have an entry. -/
structure Balanced (t : LinkTable) : Prop where
  count_eq : ∀ f c, (t.links f).callees.count c = (t.links c).callers.count f
  has_listed : ∀ name other, other ∈ (t.links name).callees ∨ other ∈ (t.links name).callers →
    Dict.has t other = true

/-- The names that the definitions of a function call. -/
def calleesIn (calls : List (String × List String)) (name : String) : List String :=
  calls.flatMap fun call => if name = call.1 then call.2 else []

/-- The callers of a function, each as often as it calls it. -/
def callersIn (calls : List (String × List String)) (name : String) : List String :=
  calls.flatMap fun call => replicate (call.2.count name) call.1

theorem links_set (key : String) (l : CallLinks) :
    links (Dict.set t key l) name = if name = key then l else t.links name := by
  unfold links
  rw [Dict.get?_set]
  split <;> rfl

theorem links_addCallees :
    (t.addCallees caller callees).links name =
      ⟨(t.links name).callers,
        (t.links name).callees ++ if name = caller then callees else []⟩ := by
  rw [addCallees, links_set]
  by_cases hname : name = caller
  · simp [hname]
  · simp [hname]

theorem links_addCaller (callee : String) :
    (t.addCaller caller callee).links name =
      ⟨(t.links name).callers ++ if name = callee then [caller] else [],
        (t.links name).callees⟩ := by
  rw [addCaller, links_set]
  by_cases hname : name = callee
  · simp [hname]
  · simp [hname]

theorem links_foldl_addCaller :
    links (callees.foldl (fun t c => t.addCaller caller c) t) name =
      ⟨(t.links name).callers ++ replicate (callees.count name) caller,
        (t.links name).callees⟩ := by
  induction callees generalizing t with
  | nil => simp
  | cons callee rest ih =>
    rw [foldl_cons, ih, links_addCaller]
    by_cases hname : name = callee
    · simp [hname, replicate_succ]
    · simp [hname, Ne.symm hname]

theorem links_addCalls :
    (t.addCalls caller callees).links name =
      ⟨(t.links name).callers ++ replicate (callees.count name) caller,
        (t.links name).callees ++ if name = caller then callees else []⟩ := by
  rw [addCalls, links_foldl_addCaller, links_addCallees]

theorem links_foldl_addCalls :
    links (calls.foldl (fun t (caller, callees) => t.addCalls caller callees) t) name =
      ⟨(t.links name).callers ++ callersIn calls name,
        (t.links name).callees ++ calleesIn calls name⟩ := by
  induction calls generalizing t with
  | nil => simp [callersIn, calleesIn]
  | cons call rest ih =>
    rw [foldl_cons, ih, links_addCalls]
    simp [callersIn, calleesIn]

theorem links_ofCalls :
    (ofCalls calls).links name = ⟨callersIn calls name, calleesIn calls name⟩ := by
  rw [ofCalls, links_foldl_addCalls]
  rfl

theorem has_foldl_addCaller :
    Dict.has (callees.foldl (fun (t : LinkTable) c => t.addCaller caller c) t) name = true ↔
      Dict.has t name = true ∨ name ∈ callees := by
  induction callees generalizing t with
  | nil => simp
  | cons callee rest ih =>
    rw [foldl_cons, ih, addCaller, Dict.has_set, mem_cons]
    tauto

theorem has_addCalls :
    Dict.has (t.addCalls caller callees) name = true ↔
      Dict.has t name = true ∨ name = caller ∨ name ∈ callees := by
  rw [addCalls, has_foldl_addCaller, addCallees, Dict.has_set]
  tauto

theorem has_foldl_addCalls :
    Dict.has (calls.foldl (fun (t : LinkTable) (caller, callees) => t.addCalls caller callees) t)
        name = true ↔
      Dict.has t name = true ∨ ∃ call ∈ calls, name = call.1 ∨ name ∈ call.2 := by
  induction calls generalizing t with
  | nil => simp
  | cons call rest ih =>
    rw [foldl_cons, ih, has_addCalls, exists_mem_cons_iff, or_assoc]

theorem has_ofCalls :
    Dict.has (ofCalls calls) name = true ↔ ∃ call ∈ calls, name = call.1 ∨ name ∈ call.2 := by
  rw [ofCalls, has_foldl_addCalls]
  simp [Dict.has]

/-! ### Both ends -/

theorem count_calleesIn (f c : String) :
    (calleesIn calls f).count c = (callersIn calls c).count f := by
  unfold calleesIn callersIn
  rw [count_flatMap, count_flatMap]
  congr 2
  funext call
  by_cases hf : f = call.1
  · simp [hf]
  · simp [hf, count_replicate, Ne.symm hf]

theorem balanced_ofCalls : (ofCalls calls).Balanced where
  count_eq f c := by rw [links_ofCalls, links_ofCalls, count_calleesIn]
  has_listed name other h := by
    rw [links_ofCalls] at h
    rw [has_ofCalls]
    rcases h with h | h
    · obtain ⟨call, hcall, hother⟩ := mem_flatMap.1 h
      split at hother
      · exact ⟨call, hcall, .inr hother⟩
      · cases hother
    · obtain ⟨call, hcall, hother⟩ := mem_flatMap.1 h
      exact ⟨call, hcall, .inl (eq_of_mem_replicate hother)⟩

/-- A call is listed equally often at both of its ends, whatever the functions call and however
often a name is defined. The lists are those of the calls in their order, and the entries are the
functions read and the names called. So it is with the links of any blocks. -/
theorem ofCalls_writes_both_ends (calls : List (String × List String)) :
    (ofCalls calls).Balanced ∧
      (∀ name, (ofCalls calls).links name = ⟨callersIn calls name, calleesIn calls name⟩) ∧
      (∀ name, Dict.has (ofCalls calls) name = true ↔
        ∃ call ∈ calls, name = call.1 ∨ name ∈ call.2) ∧
      ∀ blocks, (CodeIndex.linksOf blocks).Balanced :=
  ⟨balanced_ofCalls calls, links_ofCalls calls, has_ofCalls calls, fun _ => balanced_ofCalls _⟩

/-- A function that calls itself and an unknown one twice, defined once more without calls. -/
example : (ofCalls [("walk", ["walk", "step", "step"]), ("walk", [])]).links "step" =
    ⟨["walk", "walk"], []⟩ := by decide

end CodeAtlas.LinkTable

import CodeAtlas.Proofs.CallGraph
import CodeAtlas.Resolution.Basic

/-!
# What redirecting calls does to the graph

To redirect a missing name to a function is to go through all callers and
replace the call in each of them. `calls_redirect` and `calledBy_redirect` read
the result: whoever called the missing name calls the function, and the
function lists these callers. One caller may be the function itself.

`redirectAll` redirects several names. They are no functions and their targets
are (`Moves`), so no target is itself moved on and the moves do not see each
other: `calls_redirectAll` speaks about the calls as they were at the start.
-/

namespace CodeAtlas

open List Dict

variable {fs : Functions} {change : Function → Function} (callers : List String)

def Functions.Named (fs : Functions) : Prop := ∀ key f, fs.get? key = some f → f.name = key

/-- Every function has one entry, under its own name, and lists no call twice. -/
structure Functions.Tidy (fs : Functions) : Prop where
  distinct : fs.keys.Nodup
  named : fs.Named
  nodup : ∀ key f, fs.get? key = some f → f.calls.Nodup

theorem Functions.tidy_of_entries (hdistinct : fs.keys.Nodup)
    (hentries : ∀ entry ∈ fs, entry.2.name = entry.1 ∧ entry.2.calls.Nodup) : fs.Tidy where
  distinct := hdistinct
  named key f hf := (hentries (key, f) (mem_of_get? hf)).1
  nodup key f hf := (hentries (key, f) (mem_of_get? hf)).2

namespace Resolution

open Functions

variable {moves : List (String × String)}

theorem forall_get?_adjust {P : String → Function → Prop} {key : String}
    (hfs : ∀ k f, fs.get? k = some f → P k f) (hchange : ∀ k f, P k f → P k (change f)) :
    ∀ k f, Dict.get? (Dict.adjust fs key change) k = some f → P k f := by
  intro k f hf
  rw [get?_adjust] at hf
  split at hf
  · obtain ⟨f₀, hf₀, rfl⟩ := Option.map_eq_some_iff.1 hf
    exact hchange k f₀ (hfs k f₀ hf₀)
  · exact hfs k f hf

theorem named_adjust (hfs : fs.Named) (key : String) (hname : ∀ f, (change f).name = f.name) :
    Functions.Named (Dict.adjust fs key change) :=
  forall_get?_adjust hfs fun _ f hf => (hname f).trans hf

theorem tidy_adjust (hfs : fs.Tidy) (key : String) (hname : ∀ f, (change f).name = f.name)
    (hnodup : ∀ f, f.calls.Nodup → (change f).calls.Nodup) :
    Functions.Tidy (Dict.adjust fs key change) where
  distinct := by
    rw [keys_adjust]
    exact hfs.distinct
  named := named_adjust hfs.named key hname
  nodup := forall_get?_adjust hfs.nodup fun _ => hnodup

theorem mem_calls_replaceCall {f : Function} (hf : f.calls.Nodup) (missing target c : String) :
    c ∈ (replaceCall missing target f).calls ↔ c ∈ f.calls ∧ c ≠ missing ∨ c = target := by
  have hcalls : (replaceCall missing target f).calls = addNew (f.calls.erase missing) target := rfl
  rw [hcalls, mem_addNew, hf.mem_erase_iff, and_comm (a := c ≠ missing)]

theorem nodup_calls_replaceCall {f : Function} (hf : f.calls.Nodup) (missing target : String) :
    (replaceCall missing target f).calls.Nodup :=
  nodup_addNew (hf.erase missing) target

section

variable {missing key caller : String}

theorem redirectCaller_of_calls (hfs : fs.Named) (hkey : fs.has key = true)
    (hcalls : fs.Calls caller missing) :
    redirectCaller missing key fs caller =
      Dict.adjust (Dict.adjust fs caller (replaceCall missing key)) key (·.addCaller caller) := by
  obtain ⟨target, htarget⟩ := (has_iff _ _).1 hkey
  obtain ⟨f, hf, hmem⟩ := hcalls
  simp [redirectCaller, hf, htarget, hmem, hfs key target htarget]

theorem redirectCaller_of_not_calls (hcalls : ¬ fs.Calls caller missing) :
    redirectCaller missing key fs caller = fs := by
  unfold redirectCaller
  split
  · next f target hf htarget =>
      have hmem : missing ∉ f.calls := fun hmem => hcalls ⟨f, hf, hmem⟩
      simp [hmem]
  · rfl

theorem named_redirectCaller (hfs : fs.Named) (missing key caller : String) :
    Functions.Named (redirectCaller missing key fs caller) := by
  unfold redirectCaller
  split
  · split
    · exact named_adjust (named_adjust hfs caller (by intro; rfl)) key (by intro; rfl)
    · exact hfs
  · exact hfs

theorem keys_redirectCaller (missing key : String) (fs : Functions) (caller : String) :
    Dict.keys (redirectCaller missing key fs caller) = fs.keys := by
  unfold redirectCaller
  split
  · split
    · rw [keys_adjust, keys_adjust]
    · rfl
  · rfl

theorem has_redirectCaller (missing key : String) (fs : Functions) (caller name : String) :
    Dict.has (redirectCaller missing key fs caller) name = fs.has name :=
  has_eq_of_keys_eq (keys_redirectCaller missing key fs caller) name

theorem keys_redirectCallers (missing key : String) (fs : Functions) :
    Dict.keys (callers.foldl (redirectCaller missing key) fs) = fs.keys := by
  induction callers generalizing fs with
  | nil => rfl
  | cons caller rest ih => rw [foldl_cons, ih, keys_redirectCaller]

theorem named_redirect (hfs : fs.Named) (missing key : String) :
    Functions.Named (redirect missing key fs) :=
  foldlRecOn fs.keys (redirectCaller missing key) hfs (motive := Functions.Named)
    fun _ hfs caller _ => named_redirectCaller hfs missing key caller

theorem has_redirect (missing key : String) (fs : Functions) (name : String) :
    Dict.has (redirect missing key fs) name = fs.has name :=
  has_eq_of_keys_eq (keys_redirectCallers fs.keys missing key fs) name

theorem calls_of_redirectCaller (hfs : fs.Named) (hkey : fs.has key = true) {f c : String}
    (h : Calls (redirectCaller missing key fs caller) f c) :
    fs.Calls f c ∨ c = key ∧ fs.Calls f missing := by
  by_cases hcalls : fs.Calls caller missing
  · rw [redirectCaller_of_calls hfs hkey hcalls, calls_adjust_of_eq _ _ (by intro _; rfl),
      calls_adjust] at h
    obtain ⟨entry, hentry, hc⟩ := h
    by_cases hf : f = caller
    · subst hf
      rw [if_pos rfl] at hc
      rcases mem_addNew.1 hc with hold | hnew
      · exact .inl ⟨entry, hentry, mem_of_mem_erase hold⟩
      · exact .inr ⟨hnew, hcalls⟩
    · rw [if_neg hf] at hc
      exact .inl ⟨entry, hentry, hc⟩
  · rw [redirectCaller_of_not_calls hcalls] at h
    exact .inl h

/-- Also where a call is listed twice, only calls of the function are new. -/
theorem calls_of_redirect (hfs : fs.Named) (hkey : fs.has key = true) (hne : key ≠ missing)
    {f c : String} (h : Calls (redirect missing key fs) f c) :
    fs.Calls f c ∨ c = key ∧ fs.Calls f missing := by
  unfold redirect at h
  generalize fs.keys = callers at h
  induction callers generalizing fs with
  | nil => exact .inl h
  | cons caller rest ih =>
    rcases ih (named_redirectCaller hfs missing key caller) ((has_redirectCaller ..).trans hkey)
      h with hfirst | ⟨hc, hfirst⟩
    · exact calls_of_redirectCaller hfs hkey hfirst
    · rcases calls_of_redirectCaller hfs hkey hfirst with hcalls | ⟨heq, -⟩
      · exact .inr ⟨hc, hcalls⟩
      · exact absurd heq.symm hne

variable (hfs : fs.Tidy) (hkey : fs.has key = true)
include hfs hkey

theorem tidy_redirectCaller : Functions.Tidy (redirectCaller missing key fs caller) := by
  by_cases hcalls : fs.Calls caller missing
  · rw [redirectCaller_of_calls hfs.named hkey hcalls]
    have hreplaced : Functions.Tidy (Dict.adjust fs caller (replaceCall missing key)) :=
      tidy_adjust hfs caller (fun _ => rfl) fun f hf => nodup_calls_replaceCall hf missing key
    exact tidy_adjust hreplaced key (fun _ => rfl) fun _ hf => hf
  · rwa [redirectCaller_of_not_calls hcalls]

theorem calls_redirectCaller (f c : String) :
    Calls (redirectCaller missing key fs caller) f c ↔
      fs.Calls f c ∧ ¬ (f = caller ∧ c = missing) ∨
        c = key ∧ f = caller ∧ fs.Calls caller missing := by
  by_cases hcalls : fs.Calls caller missing
  · rw [redirectCaller_of_calls hfs.named hkey hcalls, calls_adjust_of_eq _ _ (by intro _; rfl),
      calls_adjust]
    obtain ⟨entry, hentry, hmem⟩ := hcalls
    by_cases hf : f = caller
    · simp [hf, hentry, Calls, hmem, mem_calls_replaceCall (hfs.nodup caller entry hentry)]
    · simp [hf, Calls]
  · rw [redirectCaller_of_not_calls hcalls]
    simp only [hcalls, and_false, or_false, iff_self_and]
    rintro h ⟨rfl, rfl⟩
    exact hcalls h

theorem calledBy_redirectCaller (c f : String) :
    CalledBy (redirectCaller missing key fs caller) c f ↔
      fs.CalledBy c f ∨ c = key ∧ f = caller ∧ fs.Calls caller missing := by
  by_cases hcalls : fs.Calls caller missing
  · have hkey' : Dict.has (Dict.adjust fs caller (replaceCall missing key)) key = true := by
      rw [has_adjust, hkey]
    rw [redirectCaller_of_calls hfs.named hkey hcalls, calledBy_adjust_addCaller hkey',
      calledBy_adjust_of_eq _ _ (by intro _; rfl)]
    simp [hcalls]
  · rw [redirectCaller_of_not_calls hcalls]
    simp [hcalls]

theorem tidy_redirectCallers : Functions.Tidy (callers.foldl (redirectCaller missing key) fs) := by
  induction callers generalizing fs with
  | nil => exact hfs
  | cons caller rest ih =>
    exact ih (tidy_redirectCaller hfs hkey) ((has_redirectCaller ..).trans hkey)

theorem calls_redirectCallers (hne : key ≠ missing) (f c : String) :
    Calls (callers.foldl (redirectCaller missing key) fs) f c ↔
      fs.Calls f c ∧ ¬ (f ∈ callers ∧ c = missing) ∨
        c = key ∧ f ∈ callers ∧ fs.Calls f missing := by
  induction callers generalizing fs with
  | nil => simp
  | cons caller rest ih =>
    rw [foldl_cons, ih (tidy_redirectCaller hfs hkey) ((has_redirectCaller ..).trans hkey),
      calls_redirectCaller hfs hkey, calls_redirectCaller hfs hkey]
    by_cases hf : f = caller
    · subst hf
      by_cases hc : c = missing <;> simp [hc, hne.symm]
    · simp [hf]

theorem calledBy_redirectCallers (hne : key ≠ missing) (c f : String) :
    CalledBy (callers.foldl (redirectCaller missing key) fs) c f ↔
      fs.CalledBy c f ∨ c = key ∧ f ∈ callers ∧ fs.Calls f missing := by
  induction callers generalizing fs with
  | nil => simp
  | cons caller rest ih =>
    rw [foldl_cons, ih (tidy_redirectCaller hfs hkey) ((has_redirectCaller ..).trans hkey),
      calledBy_redirectCaller hfs hkey, calls_redirectCaller hfs hkey]
    by_cases hf : f = caller
    · subst hf
      simp [hne.symm]
    · simp [hf]

theorem tidy_redirect : Functions.Tidy (redirect missing key fs) :=
  tidy_redirectCallers fs.keys hfs hkey

theorem calls_redirect (hne : key ≠ missing) (f c : String) :
    Calls (redirect missing key fs) f c ↔
      fs.Calls f c ∧ c ≠ missing ∨ c = key ∧ fs.Calls f missing := by
  rw [redirect, calls_redirectCallers fs.keys hfs hkey hne,
    and_iff_right_of_imp (a := f ∈ fs.keys) Calls.mem_keys]
  exact or_congr_left (and_congr_right fun h => not_congr (and_iff_right h.mem_keys))

theorem calledBy_redirect (hne : key ≠ missing) (c f : String) :
    CalledBy (redirect missing key fs) c f ↔ fs.CalledBy c f ∨ c = key ∧ fs.Calls f missing := by
  rw [redirect, calledBy_redirectCallers fs.keys hfs hkey hne, and_iff_right_of_imp Calls.mem_keys]

end

/-- Redirects several missing names, each to its function. -/
def redirectAll (moves : List (String × String)) (fs : Functions) : Functions :=
  moves.foldl (fun fs move => redirect move.1 move.2 fs) fs

/-- Names that are no functions, each once, with the functions that they are redirected to. -/
structure Moves (fs : Functions) (moves : List (String × String)) : Prop where
  source : ∀ move ∈ moves, fs.has move.1 = false
  target : ∀ move ∈ moves, fs.has move.2 = true
  nodup : (moves.map Prod.fst).Nodup

namespace Moves

variable {move : String × String}

section

variable (hmoves : Moves fs (move :: moves))
include hmoves

theorem head_target : fs.has move.2 = true := hmoves.target move (mem_cons_self ..)

theorem ne_head_target {other : String × String}
    (hother : other ∈ move :: moves) : other.1 ≠ move.2 := by
  intro heq
  have hsource := hmoves.source other hother
  rw [heq, hmoves.head_target] at hsource
  cases hsource

theorem head_ne : move.2 ≠ move.1 := (hmoves.ne_head_target mem_cons_self).symm

theorem tail : Moves (redirect move.1 move.2 fs) moves where
  source other hother := by
    rw [has_redirect, hmoves.source other (mem_cons_of_mem move hother)]
  target other hother := by
    rw [has_redirect, hmoves.target other (mem_cons_of_mem move hother)]
  nodup := (nodup_cons.1 hmoves.nodup).2

end

/-- The calls of a name that is still to be redirected are not touched by the first move. -/
theorem exists_calls_tail (hfs : fs.Tidy) (hmoves : Moves fs (move :: moves)) (f c : String) :
    (∃ m, (m, c) ∈ moves ∧ Calls (redirect move.1 move.2 fs) f m) ↔
      ∃ m, (m, c) ∈ moves ∧ fs.Calls f m := by
  refine exists_congr fun m => and_congr_right fun hm => ?_
  have hne : m ≠ move.1 := by
    intro heq
    refine (nodup_cons.1 hmoves.nodup).1 ?_
    exact mem_map.2 ⟨(m, c), hm, heq⟩
  have hnt : m ≠ move.2 := hmoves.ne_head_target (mem_cons_of_mem move hm)
  rw [calls_redirect hfs hmoves.head_target hmoves.head_ne]
  simp [hne, hnt]

theorem head_target_not_mem (hmoves : Moves fs (move :: moves)) : move.2 ∉ moves.map Prod.fst := by
  intro hmem
  obtain ⟨other, hother, heq⟩ := mem_map.1 hmem
  exact hmoves.ne_head_target (mem_cons_of_mem move hother) heq

theorem concat (hmoves : Moves fs moves) {m key : String} (hm : m ∉ moves.map Prod.fst)
    (hsource : fs.has m = false) (htarget : fs.has key = true) :
    Moves fs (moves ++ [(m, key)]) where
  source := forall_mem_append.2 ⟨hmoves.source, forall_mem_singleton.2 hsource⟩
  target := forall_mem_append.2 ⟨hmoves.target, forall_mem_singleton.2 htarget⟩
  nodup := by
    rw [map_append]
    exact List.Nodup.append hmoves.nodup (by simp) (by simpa using hm)

end Moves

theorem tidy_redirectAll (hfs : fs.Tidy) (hmoves : Moves fs moves) :
    Functions.Tidy (redirectAll moves fs) := by
  induction moves generalizing fs with
  | nil => exact hfs
  | cons move rest ih => exact ih (tidy_redirect hfs hmoves.head_target) hmoves.tail

theorem keys_redirectAll (moves : List (String × String)) (fs : Functions) :
    Dict.keys (redirectAll moves fs) = fs.keys := by
  induction moves generalizing fs with
  | nil => rfl
  | cons move rest ih => exact (ih _).trans (keys_redirectCallers fs.keys move.1 move.2 fs)

theorem redirectAll_cons (move : String × String) (moves : List (String × String))
    (fs : Functions) :
    redirectAll (move :: moves) fs = redirectAll moves (redirect move.1 move.2 fs) := rfl

theorem redirectAll_append (moves moves' : List (String × String)) (fs : Functions) :
    redirectAll (moves ++ moves') fs = redirectAll moves' (redirectAll moves fs) :=
  foldl_append

theorem exists_mem_cons_move {P : String → Prop} (move : String × String)
    (moves : List (String × String)) (c : String) :
    (∃ m, (m, c) ∈ move :: moves ∧ P m) ↔ c = move.2 ∧ P move.1 ∨ ∃ m, (m, c) ∈ moves ∧ P m := by
  simp only [mem_cons, or_and_right, exists_or]
  refine or_congr_left ?_
  constructor
  · rintro ⟨m, rfl, hm⟩
    exact ⟨rfl, hm⟩
  · rintro ⟨rfl, hm⟩
    exact ⟨move.1, rfl, hm⟩

theorem calls_of_redirectAll (hfs : fs.Named) (hmoves : Moves fs moves)
    {f c : String} (h : Calls (redirectAll moves fs) f c) :
    fs.Calls f c ∨ ∃ m, (m, c) ∈ moves ∧ fs.Calls f m := by
  induction moves generalizing fs with
  | nil => exact .inl h
  | cons move rest ih =>
    have hfirst := @calls_of_redirect fs move.1 move.2 hfs hmoves.head_target hmoves.head_ne f
    rw [exists_mem_cons_move]
    rcases ih (named_redirect hfs move.1 move.2) hmoves.tail h with hcalls | ⟨m, hm, hcalls⟩
    · rcases hfirst hcalls with hold | hmoved
      · exact .inl hold
      · exact .inr (.inl hmoved)
    · rcases hfirst hcalls with hold | ⟨rfl, -⟩
      · exact .inr (.inr ⟨m, hm, hold⟩)
      · exact (hmoves.head_target_not_mem (mem_map.2 ⟨_, hm, rfl⟩)).elim

theorem calls_redirectAll (hfs : fs.Tidy) (hmoves : Moves fs moves)
    (f c : String) :
    Calls (redirectAll moves fs) f c ↔
      fs.Calls f c ∧ c ∉ moves.map Prod.fst ∨ ∃ m, (m, c) ∈ moves ∧ fs.Calls f m := by
  induction moves generalizing fs with
  | nil => simp [redirectAll]
  | cons move rest ih =>
    have htarget : c = move.2 → c ∉ rest.map Prod.fst := by
      rintro rfl
      exact hmoves.head_target_not_mem
    rw [redirectAll_cons, ih (tidy_redirect hfs hmoves.head_target) hmoves.tail,
      hmoves.exists_calls_tail hfs, calls_redirect hfs hmoves.head_target hmoves.head_ne,
      exists_mem_cons_move, map_cons, mem_cons]
    tauto

theorem calledBy_redirectAll (hfs : fs.Tidy) (hmoves : Moves fs moves)
    (c f : String) :
    CalledBy (redirectAll moves fs) c f ↔ fs.CalledBy c f ∨ ∃ m, (m, c) ∈ moves ∧ fs.Calls f m := by
  induction moves generalizing fs with
  | nil => simp [redirectAll]
  | cons move rest ih =>
    rw [redirectAll_cons, ih (tidy_redirect hfs hmoves.head_target) hmoves.tail,
      hmoves.exists_calls_tail hfs, calledBy_redirect hfs hmoves.head_target hmoves.head_ne,
      exists_mem_cons_move, or_assoc]

end Resolution

end CodeAtlas

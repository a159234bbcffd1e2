import CodeAtlas.Proofs.Fault
import CodeAtlas.Proofs.Resolution.Redirect
import CodeAtlas.Resolution.Signature

/-!
# What decides about a missing name

A missing name is tried in two ways, by its name and by the signatures of its
call sites. Either way first comes to a verdict, which changes nothing, and then
settles it. The verdict reads of each function its name, its further data and
whether it calls the missing name. `seenFor` blanks out all the rest, and a
verdict stays the same when everything is blanked out
(`verdictByName_seen`, `verdictBySignature_seen`).

Redirecting one missing name does not change what is seen for another one,
because a target is a function and no missing name (`seen_redirectAll`). So the
verdict about a name can be read off the functions as they were at the start.
-/

namespace CodeAtlas.Resolution

open Functions List Dict

variable {options : Functions} {other key : String} {moves : List (String × String)}
  {best : Option (String × Nat)} (fs : Functions) (missing : String) (byScope : Bool)
  (clues : Clues)

/-- What is decided about a missing name. -/
inductive Verdict where
  | unresolved
  | known
  /-- It stands for the function under a key. -/
  | target (key : String)
deriving Repr, DecidableEq

def Verdict.isResolved : Verdict → Bool
  | .unresolved => false
  | .known | .target _ => true

def Verdict.ofKey? : Option String → Verdict
  | some key => .target key
  | none => .unresolved

def Progress.settle (p : Progress) (missing : String) : Verdict → Progress
  | .unresolved => p
  | .known => { p with resolved := p.resolved ++ [missing] }
  | .target key => p.redirect missing key

def verdictByName (byScope : Bool) (fs : Functions) (missing : String) : Except Fault Verdict :=
  if fs.has missing then .ok .known
  else
    match candidates fs (lastPart missing) with
    | [] => .ok .unresolved
    | [(key, _)] => .ok (.target key)
    | options =>
      if byScope then (scopeCandidate? fs missing options).map Verdict.ofKey?
      else .ok .unresolved

def verdictBySignature (fs : Functions) (missing : String) : Except Fault Verdict := do
  let clues ← readClues fs missing
  match ← best? fs missing clues (potentialMatches fs missing clues) with
  | some (key, n) => return if threshold < n then .target key else .unresolved
  | none => return .unresolved

theorem resolveByName_eq (p : Progress) :
    resolveByName byScope p missing =
      (verdictByName byScope p.functions missing).map (p.settle missing) := by
  unfold resolveByName verdictByName
  by_cases hhas : p.functions.has missing = true
  · simp only [hhas, if_true]
    rfl
  · simp only [hhas]
    cases candidates p.functions (lastPart missing) with
    | nil => rfl
    | cons first others =>
      cases others with
      | nil => rfl
      | cons second rest =>
        cases byScope with
        | false => rfl
        | true =>
          cases hscope : scopeCandidate? p.functions missing (first :: second :: rest) with
          | error e =>
            simp only [hscope]
            rfl
          | ok best =>
            simp only [hscope]
            cases best <;> rfl

theorem resolveBySignature_eq (p : Progress) :
    resolveBySignature p missing =
      (verdictBySignature p.functions missing).map (p.settle missing) := by
  unfold resolveBySignature verdictBySignature
  cases hclues : readClues p.functions missing with
  | error e => rfl
  | ok clues =>
    cases hbest : best? p.functions missing clues
        (potentialMatches p.functions missing clues) with
    | error e =>
      simp only [bind, Except.bind, hbest]
      rfl
    | ok best =>
      simp only [bind, Except.bind, hbest]
      cases best with
      | none => rfl
      | some entry =>
        obtain ⟨key, n⟩ := entry
        by_cases hn : threshold < n
        · simp only [hn, if_true]
          rfl
        · simp only [hn, if_false]
          rfl

/-- What is seen of a function when a missing name is decided about. -/
def seenFor (missing : String) (f : Function) : Function :=
  { name := f.name, metadata := f.metadata,
    calls := if f.calls.contains missing then [missing] else [] }

@[simp] theorem seenFor_name (f : Function) : (seenFor missing f).name = f.name := rfl

@[simp] theorem seenFor_metadata (f : Function) : (seenFor missing f).metadata = f.metadata := rfl

@[simp] theorem metadataOf_seenFor (f : Function) :
    metadataOf (seenFor missing f) = metadataOf f := rfl

@[simp] theorem contains_calls_seenFor (f : Function) :
    (seenFor missing f).calls.contains missing = f.calls.contains missing := by
  unfold seenFor
  split_ifs with h
  · simpa using h
  · simpa using h

def seen (missing : String) (fs : Functions) : Functions := Dict.mapValues (seenFor missing) fs

theorem filter_seen (keep : String × Function → Bool)
    (hkeep : ∀ key f, keep (key, seenFor missing f) = keep (key, f)) :
    (seen missing fs).filter keep = seen missing (fs.filter keep) := by
  unfold seen Dict.mapValues
  rw [filter_map]
  congr 2
  funext entry
  exact hkeep entry.1 entry.2

theorem foldlM_seen {α : Type}
    {step step' : α → String × Function → Except Fault α}
    (hstep : ∀ a key f, step' a (key, seenFor missing f) = step a (key, f)) (a : α) :
    (seen missing fs).foldlM step' a = fs.foldlM step a := by
  unfold seen Dict.mapValues
  rw [foldlM_map]
  congr 1
  funext a entry
  exact hstep a entry.1 entry.2

theorem candidates_seen (part : String) :
    candidates (seen missing fs) part = seen missing (candidates fs part) :=
  filter_seen fs missing _ fun _ _ => rfl

theorem inScope?_seen (scope : Json) (options : Functions) :
    inScope? scope (seen missing options) = inScope? scope options := by
  induction options with
  | nil => rfl
  | cons entry rest ih =>
    have hcons : seen missing (entry :: rest) =
        (entry.1, seenFor missing entry.2) :: seen missing rest := rfl
    rw [hcons, inScope?, inScope?, ih, metadataOf_seenFor]

theorem scopeCandidate?_seen (options : Functions) :
    scopeCandidate? (seen missing fs) missing (seen missing options) =
      scopeCandidate? fs missing options := by
  unfold scopeCandidate?
  apply foldlM_seen
  intro best key f
  simp only [contains_calls_seenFor, metadataOf_seenFor, inScope?_seen]

theorem verdictByName_seen :
    verdictByName byScope (seen missing fs) missing = verdictByName byScope fs missing := by
  unfold verdictByName
  rw [candidates_seen, seen, has_mapValues, ← seen]
  split
  · rfl
  · cases candidates fs (lastPart missing) with
    | nil => rfl
    | cons first rest =>
      cases rest with
      | nil => rfl
      | cons second rest =>
        have hscope := scopeCandidate?_seen fs missing (first :: second :: rest)
        change (if byScope = true then
            (scopeCandidate? (seen missing fs) missing
              (seen missing (first :: second :: rest))).map Verdict.ofKey?
          else .ok .unresolved) = _
        rw [hscope]

theorem readClues_seen : readClues (seen missing fs) missing = readClues fs missing := by
  unfold readClues
  congr 1
  apply foldlM_seen
  intro c key f
  simp only [contains_calls_seenFor, metadataOf_seenFor]

theorem scopeScore_seen (data : Dict Json) :
    scopeScore (seen missing fs) missing data = scopeScore fs missing data := by
  unfold scopeScore
  split
  · rfl
  · apply foldlM_seen
    intro n key f
    simp only [contains_calls_seenFor, metadataOf_seenFor]

theorem score_seen (f : Function) :
    score (seen missing fs) missing clues (seenFor missing f) = score fs missing clues f := by
  unfold score
  simp only [metadataOf_seenFor, seenFor_name, scopeScore_seen]
  rfl

theorem potentialMatches_seen :
    potentialMatches (seen missing fs) missing clues =
      seen missing (potentialMatches fs missing clues) := by
  unfold potentialMatches
  split
  · rfl
  · next n _ =>
      extract_lets found named found' named'
      have hfound : found = seen missing found' := filter_seen fs missing _ fun _ _ => rfl
      have hnamed : named = seen missing named' := by
        simp only [named, hfound]
        exact filter_seen found' missing _ fun _ _ => rfl
      have hempty : named.isEmpty = named'.isEmpty := by
        rw [hnamed, seen, Dict.mapValues, isEmpty_map]
      rw [hempty, hnamed, hfound]
      split <;> rfl

theorem best?_seen (options : Functions) :
    best? (seen missing fs) missing clues (seen missing options) =
      best? fs missing clues options := by
  unfold best?
  apply foldlM_seen
  intro best key f
  simp only [score_seen]

theorem verdictBySignature_seen :
    verdictBySignature (seen missing fs) missing = verdictBySignature fs missing := by
  unfold verdictBySignature
  simp only [readClues_seen, potentialMatches_seen, best?_seen]

theorem seen_adjust (key : String) {change : Function → Function}
    (hchange : ∀ f, seenFor missing (change f) = seenFor missing f) :
    seen missing (Dict.adjust fs key change) = seen missing fs := by
  unfold seen
  rw [Dict.mapValues_adjust (seenFor missing) fs key change id hchange, adjust_id]

theorem seenFor_replaceCall {missing target : String} (hother : missing ≠ other)
    (htarget : missing ≠ target) (f : Function) :
    seenFor missing (replaceCall other target f) = seenFor missing f := by
  have hcalls : (replaceCall other target f).calls.contains missing = f.calls.contains missing := by
    have hadd : (replaceCall other target f).calls = addNew (f.calls.erase other) target := rfl
    rw [Bool.eq_iff_iff, hadd, contains_iff_mem, contains_iff_mem, mem_addNew,
      mem_erase_of_ne hother]
    simp [htarget]
  unfold seenFor
  rw [hcalls]
  rfl

variable {fs missing byScope clues}

section

theorem seen_redirectCaller (hfs : fs.Named) (hkey : fs.has key = true) (hother : missing ≠ other)
    (htarget : missing ≠ key) (caller : String) :
    seen missing (redirectCaller other key fs caller) = seen missing fs := by
  by_cases hcalls : fs.Calls caller other
  · rw [redirectCaller_of_calls hfs hkey hcalls, seen_adjust _ _ _ (by intro _; rfl),
      seen_adjust _ _ _ (seenFor_replaceCall hother htarget)]
  · rw [redirectCaller_of_not_calls hcalls]

theorem seen_redirect (hfs : fs.Named) (hkey : fs.has key = true) (hother : missing ≠ other)
    (htarget : missing ≠ key) : seen missing (redirect other key fs) = seen missing fs := by
  unfold redirect
  generalize fs.keys = callers
  induction callers generalizing fs with
  | nil => rfl
  | cons caller rest ih =>
    rw [foldl_cons, ih (named_redirectCaller hfs other key caller)
      ((has_redirectCaller ..).trans hkey),
      seen_redirectCaller hfs hkey hother htarget]

variable (hfs : fs.Named) (hmoves : Moves fs moves) (hmissing : missing ∉ moves.map Prod.fst)
include hfs hmoves hmissing

theorem seen_redirectAll (hnew : fs.has missing = false) :
    seen missing (redirectAll moves fs) = seen missing fs := by
  induction moves generalizing fs with
  | nil => rfl
  | cons move rest ih =>
    rw [map_cons, mem_cons, not_or] at hmissing
    have htarget : missing ≠ move.2 := by
      rintro rfl
      rw [hmoves.head_target] at hnew
      cases hnew
    have hrest := ih (named_redirect hfs move.1 move.2) hmoves.tail hmissing.2
      ((has_redirect ..).trans hnew)
    exact hrest.trans (seen_redirect hfs hmoves.head_target hmissing.1 htarget)

theorem verdictBySignature_redirectAll (hnew : fs.has missing = false) :
    verdictBySignature (redirectAll moves fs) missing = verdictBySignature fs missing := by
  rw [← verdictBySignature_seen, seen_redirectAll hfs hmoves hmissing hnew, verdictBySignature_seen]

theorem verdictByName_redirectAll :
    verdictByName byScope (redirectAll moves fs) missing = verdictByName byScope fs missing := by
  cases hhas : fs.has missing with
  | false =>
    rw [← verdictByName_seen, seen_redirectAll hfs hmoves hmissing hhas, verdictByName_seen]
  | true =>
    have hhas' : Dict.has (redirectAll moves fs) missing = true :=
      (has_eq_of_keys_eq (keys_redirectAll moves fs) missing).trans hhas
    simp [verdictByName, hhas, hhas']

end

/-! ### Targets are functions -/

theorem has_of_mem {f : Function} (h : (key, f) ∈ fs) : fs.has key = true := by
  rw [has_iff, ← mem_keys_iff]
  exact mem_map.2 ⟨(key, f), h, rfl⟩

theorem has_of_filter {keep : String × Function → Bool}
    (h : Dict.has (fs.filter keep) key = true) : fs.has key = true := by
  obtain ⟨f, hf⟩ := (has_iff _ _).1 h
  exact has_of_mem (mem_of_mem_filter (mem_of_get? hf))

theorem has_of_inScope? {scope : Json} (h : inScope? scope options = .ok (some key)) :
    options.has key = true := by
  induction options with
  | nil => cases h
  | cons entry rest ih =>
    obtain ⟨k, f⟩ := entry
    have hrest : inScope? scope rest = .ok (some key) → Dict.has ((k, f) :: rest) key = true := by
      intro hkey
      obtain ⟨f', hf'⟩ := (has_iff _ _).1 (ih hkey)
      exact has_of_mem (mem_cons_of_mem _ (mem_of_get? hf'))
    rw [inScope?] at h
    obtain ⟨data, _, h⟩ := exists_of_bind_eq_ok h
    split at h
    · split at h
      · cases h
        exact has_of_mem (mem_cons_self ..)
      · exact hrest h
    · exact hrest h

theorem has_of_scopeCandidate?
    (h : scopeCandidate? fs missing options = .ok (some key)) : options.has key = true := by
  have hbest := foldlM_invariant (fun best => ∀ key, best = some key → options.has key = true) fs
    ?_ (by simp) h
  · exact hbest key rfl
  · rintro best ⟨k, f⟩ best' _ hold hstep
    dsimp only at hstep
    split at hstep
    · obtain ⟨data, _, hstep⟩ := exists_of_bind_eq_ok hstep
      split at hstep
      · obtain ⟨found, hfound, hstep⟩ := exists_of_bind_eq_ok hstep
        split at hstep
        · cases hstep
          rintro _ ⟨⟩
          exact has_of_inScope? hfound
        · cases hstep
          exact hold
      · cases hstep
        exact hold
    · cases hstep
      exact hold

theorem has_candidates_of_verdictByName (h : verdictByName byScope fs missing = .ok (.target key)) :
    fs.has missing = false ∧ Dict.has (candidates fs (lastPart missing)) key = true := by
  unfold verdictByName at h
  split at h
  · cases h
  · next hnew =>
      refine ⟨Bool.eq_false_iff.2 hnew, ?_⟩
      split at h
      · cases h
      · next f hsingle =>
          cases h
          rw [hsingle]
          exact has_of_mem (mem_cons_self ..)
      · split at h
        · cases hscope : scopeCandidate? fs missing (candidates fs (lastPart missing)) with
          | error e =>
            rw [hscope] at h
            cases h
          | ok best =>
            rw [hscope] at h
            cases best with
            | none => cases h
            | some k =>
              cases h
              exact has_of_scopeCandidate? hscope
        · cases h

theorem has_of_verdictByName (h : verdictByName byScope fs missing = .ok (.target key)) :
    fs.has missing = false ∧ fs.has key = true :=
  (has_candidates_of_verdictByName h).imp_right has_of_filter

theorem verdictByName_eq_known_iff :
    verdictByName byScope fs missing = .ok .known ↔ fs.has missing = true := by
  unfold verdictByName
  by_cases hhas : fs.has missing = true
  · simp [hhas]
  · simp only [hhas, Bool.false_eq_true, if_false, iff_false]
    split
    · simp
    · simp
    · split
      · cases scopeCandidate? fs missing (candidates fs (lastPart missing)) with
        | error e => simp [Except.map]
        | ok best => cases best <;> simp [Except.map, Verdict.ofKey?]
      · simp

/-- The best candidate so far: it has been looked at, and no other one has more points. -/
structure IsBest (fs : Functions) (missing : String) (clues : Clues) (looked : Functions)
    (best : Option (String × Nat)) : Prop where
  seen : ∀ key n, best = some (key, n) →
    ∃ f, (key, f) ∈ looked ∧ score fs missing clues f = .ok n
  most : ∀ other ∈ looked, ∃ key n, best = some (key, n) ∧
    ∃ n' ≤ n, score fs missing clues other.2 = .ok n'

def better (best : Option (String × Nat)) (key : String) (n : Nat) : Option (String × Nat) :=
  match best with
  | some (_, m) => if m < n then some (key, n) else best
  | none => some (key, n)

theorem IsBest.concat {looked : Functions} (h : IsBest fs missing clues looked best)
    {f : Function} {n : Nat} (hn : score fs missing clues f = .ok n) :
    IsBest fs missing clues (looked ++ [(key, f)]) (better best key n) := by
  -- the new best one has at least the points of the old one and of the candidate
  have hbetter : ∃ key' n', better best key n = some (key', n') ∧ n ≤ n' ∧
      (∀ k m, best = some (k, m) → m ≤ n') ∧ (best = some (key', n') ∨ key' = key ∧ n' = n) := by
    rcases best with _ | ⟨k, m⟩
    · exact ⟨key, n, rfl, Nat.le_refl n, by simp, .inr ⟨rfl, rfl⟩⟩
    · by_cases hless : m < n
      · refine ⟨key, n, if_pos hless, Nat.le_refl n, ?_, .inr ⟨rfl, rfl⟩⟩
        rintro _ _ ⟨⟩
        exact Nat.le_of_lt hless
      · refine ⟨k, m, if_neg hless, Nat.le_of_not_lt hless, ?_, .inl rfl⟩
        rintro _ _ ⟨⟩
        exact Nat.le_refl m
  obtain ⟨key', n', hsome, hle, hold, hfrom⟩ := hbetter
  constructor
  · intro k m hkm
    obtain ⟨rfl, rfl⟩ : key' = k ∧ n' = m := by simpa [hsome] using hkm
    rcases hfrom with hfrom | ⟨rfl, rfl⟩
    · obtain ⟨f', hf', hscore⟩ := h.seen _ _ hfrom
      exact ⟨f', mem_append_left _ hf', hscore⟩
    · exact ⟨f, mem_append_right _ mem_cons_self, hn⟩
  · intro other hother
    refine ⟨key', n', hsome, ?_⟩
    rcases mem_append.1 hother with hother | hother
    · obtain ⟨k, m, hbest, m', hm', hscore⟩ := h.most other hother
      exact ⟨m', Nat.le_trans hm' (hold k m hbest), hscore⟩
    · obtain rfl : other = (key, f) := by simpa using hother
      exact ⟨n, hle, hn⟩

theorem isBest_best? (h : best? fs missing clues options = .ok best) :
    IsBest fs missing clues options best := by
  have hfold : ∀ (rest looked : Functions) (start : Option (String × Nat)),
      IsBest fs missing clues looked start →
      rest.foldlM (fun best (entry : String × Function) =>
        (score fs missing clues entry.2).map (better best entry.1)) start = .ok best →
      IsBest fs missing clues (looked ++ rest) best := by
    intro rest
    induction rest with
    | nil =>
      intro looked start hstart h
      cases h
      rwa [append_nil]
    | cons entry rest ih =>
      intro looked start hstart h
      rw [foldlM_cons] at h
      obtain ⟨start', hstep, h⟩ := exists_of_bind_eq_ok h
      cases hn : score fs missing clues entry.2 with
      | error e =>
        rw [hn] at hstep
        cases hstep
      | ok n =>
        rw [hn] at hstep
        cases hstep
        have hlooked := ih (looked ++ [entry]) _ (hstart.concat hn) h
        rwa [append_assoc] at hlooked
  refine hfold options [] none ⟨by simp, by simp⟩ ?_
  rw [← h, best?]
  congr 1
  funext best entry
  obtain ⟨key, f⟩ := entry
  dsimp only
  cases score fs missing clues f with
  | error e => rfl
  | ok n => rcases best with _ | ⟨k, m⟩ <;> rfl

/-- All candidates have the last part of the name, or none has it and they are all functions with
the likely number of parameters. -/
theorem potentialMatches_cases (fs : Functions) (missing : String) (clues : Clues) :
    (∀ entry ∈ potentialMatches fs missing clues,
        entry ∈ fs ∧ lastPart entry.2.name = lastPart missing) ∨
      ∃ count, clues.count? = some count ∧
        potentialMatches fs missing clues = withParamCount fs count ∧
        ∀ entry ∈ withParamCount fs count, lastPart entry.2.name ≠ lastPart missing := by
  unfold potentialMatches
  cases clues.count? with
  | none => exact .inl (by simp)
  | some count =>
    dsimp only
    split_ifs with hempty
    · refine .inr ⟨count, rfl, rfl, fun entry hentry => ?_⟩
      simpa using filter_eq_nil_iff.1 (isEmpty_iff.1 hempty) entry hentry
    · refine .inl fun entry hentry => ?_
      obtain ⟨hfound, hlast⟩ := mem_filter.1 hentry
      exact ⟨mem_of_mem_filter hfound, by simpa using hlast⟩

theorem has_of_best? {n : Nat}
    (h : best? fs missing clues options = .ok (some (key, n))) : options.has key = true := by
  obtain ⟨f, hf, -⟩ := (isBest_best? h).seen key n rfl
  exact has_of_mem hf

theorem has_of_potentialMatches
    (h : Dict.has (potentialMatches fs missing clues) key = true) : fs.has key = true := by
  obtain ⟨f, hf⟩ := (has_iff _ _).1 h
  have hmem := mem_of_get? hf
  rcases potentialMatches_cases fs missing clues with hname | ⟨count, -, hall, -⟩
  · exact has_of_mem (hname _ hmem).1
  · rw [hall] at hmem
    exact has_of_mem (mem_of_mem_filter hmem)

theorem exists_best_of_verdictBySignature {v : Verdict}
    (h : verdictBySignature fs missing = .ok v) :
    v = .unresolved ∨ ∃ clues key n, readClues fs missing = .ok clues ∧
      best? fs missing clues (potentialMatches fs missing clues) = .ok (some (key, n)) ∧
      threshold < n ∧ v = .target key := by
  obtain ⟨clues, hclues, h⟩ := exists_of_bind_eq_ok h
  obtain ⟨best, hbest, h⟩ := exists_of_bind_eq_ok h
  cases best with
  | none =>
    cases h
    exact .inl rfl
  | some entry =>
    obtain ⟨key, n⟩ := entry
    by_cases hn : threshold < n
    · simp only [hn, if_true] at h
      cases h
      exact .inr ⟨clues, key, n, hclues, hbest, hn, rfl⟩
    · simp only [hn, if_false] at h
      cases h
      exact .inl rfl

theorem verdictBySignature_cases {v : Verdict}
    (h : verdictBySignature fs missing = .ok v) :
    v = .unresolved ∨ ∃ key, v = .target key ∧ fs.has key = true := by
  refine (exists_best_of_verdictBySignature h).imp_right ?_
  rintro ⟨clues, key, n, -, hbest, -, hv⟩
  exact ⟨key, hv, has_of_potentialMatches (has_of_best? hbest)⟩

end CodeAtlas.Resolution

import CodeAtlas.Proofs.Resolution.Evidence

/-!
# How the resolution of missing functions ends

The missing names are a set, so they may be gone through in any order, and in
another one in the second pass. `Resolves mode g g' n` says that in some orders
the resolution ends with `g'` and the count `n`.

`foldlM_settle` follows one pass: since no name changes what is seen for
another one, the pass does what the verdicts of its start say. Both passes
together are described by `Outcome`, in which no order occurs any more. The two
main results are read off it. The resolution keeps the graph in shape
(`resolves_keeps_graph`), and its result does not depend on the orders
(`resolves_order_free`).
-/

namespace CodeAtlas

open List

variable {mode : CrossReferenceMode} {fs : Functions} {g g' : CallGraph} {m : String}
  {first second : List String} {n : Nat}

/-- A call graph over functions with one entry each and distinct missing names. -/
structure CallGraph.Tidy (g : CallGraph) : Prop where
  /-- The functions stand under their names and list no call twice. -/
  functions : g.functions.Tidy
  missing : g.missing.Nodup

namespace Resolution

open Functions

def isSettled : Except Fault Verdict → Bool
  | .ok v => v.isResolved
  | .error _ => false

def Verdict.moves (missing : String) : Verdict → List (String × String)
  | .target key => [(missing, key)]
  | .unresolved | .known => []

def movesOf (verdict : String → Except Fault Verdict) (names : List String) :
    List (String × String) :=
  names.flatMap fun m =>
    match verdict m with
    | .ok v => v.moves m
    | .error _ => []

theorem functions_settle (p : Progress) (missing : String) (v : Verdict) :
    (p.settle missing v).functions = redirectAll (v.moves missing) p.functions := by
  cases v <;> rfl

theorem resolved_settle (p : Progress) (missing : String) (v : Verdict) :
    (p.settle missing v).resolved = p.resolved ++ if v.isResolved then [missing] else [] := by
  cases v <;> simp [Progress.settle, Progress.redirect, Verdict.isResolved]

theorem Verdict.mem_moves (v : Verdict) (missing m key : String) :
    (m, key) ∈ v.moves missing ↔ m = missing ∧ v = .target key := by
  cases v <;> simp [Verdict.moves, eq_comm (a := key)]

theorem mem_movesOf (verdict : String → Except Fault Verdict) (names : List String)
    (m key : String) :
    (m, key) ∈ movesOf verdict names ↔ m ∈ names ∧ verdict m = .ok (.target key) := by
  unfold movesOf
  rw [mem_flatMap]
  constructor
  · rintro ⟨name, hname, hmove⟩
    split at hmove
    · next v hverdict =>
        obtain ⟨rfl, rfl⟩ := (v.mem_moves name m key).1 hmove
        exact ⟨hname, hverdict⟩
    · cases hmove
  · rintro ⟨hm, hverdict⟩
    refine ⟨m, hm, ?_⟩
    rw [hverdict]
    exact (Verdict.mem_moves _ m m key).2 ⟨rfl, rfl⟩

theorem exists_of_mem_sources {verdict : String → Except Fault Verdict} {names : List String}
    (h : m ∈ (movesOf verdict names).map Prod.fst) :
    m ∈ names ∧ ∃ key, verdict m = .ok (.target key) := by
  obtain ⟨⟨m', key⟩, hmove, rfl⟩ := mem_map.1 h
  obtain ⟨hm, hverdict⟩ := (mem_movesOf verdict names m' key).1 hmove
  exact ⟨hm, key, hverdict⟩

theorem Moves.append_verdict {moves : List (String × String)} (hmoves : Moves fs moves)
    (hm : m ∉ moves.map Prod.fst) {v : Verdict}
    (htarget : ∀ key, v = .target key → fs.has m = false ∧ fs.has key = true) :
    Moves fs (moves ++ v.moves m) := by
  cases v with
  | unresolved => simpa [Verdict.moves] using hmoves
  | known => simpa [Verdict.moves] using hmoves
  | target key => exact hmoves.concat hm (htarget key rfl).1 (htarget key rfl).2

theorem foldlM_settle (verdict : Functions → String → Except Fault Verdict) (order : List String)
    (hnodup : order.Nodup)
    (hkeep : ∀ m ∈ order, ∀ moves, Moves fs moves → m ∉ moves.map Prod.fst →
      verdict (redirectAll moves fs) m = verdict fs m)
    (htarget : ∀ m ∈ order, ∀ key, verdict fs m = .ok (.target key) →
      fs.has m = false ∧ fs.has key = true)
    (moves : List (String × String)) (hmoves : Moves fs moves)
    (hapart : ∀ m ∈ order, m ∉ moves.map Prod.fst) (p p' : Progress)
    (hp : p.functions = redirectAll moves fs)
    (h : order.foldlM (fun p m => (verdict p.functions m).map (p.settle m)) p = .ok p') :
    (∀ m ∈ order, ∃ v, verdict fs m = .ok v) ∧ Moves fs (moves ++ movesOf (verdict fs) order) ∧
      p'.functions = redirectAll (moves ++ movesOf (verdict fs) order) fs ∧
      p'.resolved = p.resolved ++ order.filter fun m => isSettled (verdict fs m) := by
  induction order generalizing moves p with
  | nil =>
    cases h
    simpa [movesOf] using ⟨hmoves, hp⟩
  | cons m rest ih =>
    obtain ⟨hm, hrest⟩ := nodup_cons.1 hnodup
    have hfirst := mem_cons_self (a := m) (l := rest)
    rw [foldlM_cons] at h
    obtain ⟨p₁, hstep, h⟩ := exists_of_bind_eq_ok h
    -- the functions have changed since the start, but not what is seen for `m`
    rw [hp, hkeep m hfirst moves hmoves (hapart m hfirst)] at hstep
    cases hverdict : verdict fs m with
    | error e =>
      rw [hverdict] at hstep
      cases hstep
    | ok v =>
      rw [hverdict] at hstep
      obtain rfl : p.settle m v = p₁ := Except.ok.inj hstep
      have hmoved : Moves fs (moves ++ v.moves m) :=
        hmoves.append_verdict (hapart m hfirst) fun key hkey =>
          htarget m hfirst key (hkey ▸ hverdict)
      have hfresh : ∀ m' ∈ rest, m' ∉ (moves ++ v.moves m).map Prod.fst := by
        intro m' hm' hmem
        rw [map_append, mem_append] at hmem
        rcases hmem with hold | hnew
        · exact hapart m' (mem_cons_of_mem m hm') hold
        · obtain ⟨⟨m₁, key⟩, hmove, rfl⟩ := mem_map.1 hnew
          obtain ⟨rfl, _⟩ := (v.mem_moves m m₁ key).1 hmove
          exact hm hm'
      have hfunctions : (p.settle m v).functions = redirectAll (moves ++ v.moves m) fs := by
        rw [redirectAll_append, ← hp, functions_settle]
      obtain ⟨hok, hmoves', hfunctions', hresolved⟩ := ih hrest
        (fun m' hm' => hkeep m' (mem_cons_of_mem m hm'))
        (fun m' hm' => htarget m' (mem_cons_of_mem m hm')) _ hmoved hfresh _ hfunctions h
      have hall : moves ++ movesOf (verdict fs) (m :: rest) =
          moves ++ v.moves m ++ movesOf (verdict fs) rest := by
        simp [movesOf, hverdict]
      rw [hall]
      refine ⟨?_, hmoves', hfunctions', ?_⟩
      · intro m' hm'
        rcases mem_cons.1 hm' with rfl | hm'
        · exact ⟨v, hverdict⟩
        · exact hok m' hm'
      · have hsettled : isSettled (verdict fs m) = v.isResolved := by rw [hverdict]; rfl
        rw [hresolved, resolved_settle, append_assoc, filter_cons, hsettled]
        cases v.isResolved <;> rfl

/-- What is decided in the end: with full analysis by name and, failing that, by signature,
otherwise by name and scope. -/
def verdict (full : Bool) (fs : Functions) (missing : String) : Except Fault Verdict :=
  if full then
    match verdictByName false fs missing with
    | .ok .unresolved => verdictBySignature fs missing
    | v => v
  else verdictByName true fs missing

theorem verdict_true_eq {v : Verdict} (hok : verdictByName false fs m = .ok v) :
    verdict true fs m =
      if isSettled (verdictByName false fs m) then verdictByName false fs m
      else verdictBySignature fs m := by
  unfold verdict
  rw [hok]
  cases v <;> rfl

theorem has_of_verdict_eq_known {full : Bool} (h : verdict full fs m = .ok .known) :
    fs.has m = true := by
  unfold verdict at h
  split at h
  · split at h
    · rcases verdictBySignature_cases h with hv | ⟨key, hv, _⟩ <;> cases hv
    · exact verdictByName_eq_known_iff.1 h
  · exact verdictByName_eq_known_iff.1 h

/-- The outcome of a resolution that redirects the given names: all that changes is said by the
verdicts about the functions as they were. -/
structure Outcome (full : Bool) (g g' : CallGraph) (n : Nat) (moves : List (String × String)) :
    Prop where
  /-- Missing names are redirected to functions. -/
  valid : Moves g.functions moves
  /-- The calls are redirected, nothing else is changed. -/
  functions : g'.functions = redirectAll moves g.functions
  /-- A name is redirected where its verdict says. -/
  mem_moves : ∀ m key, (m, key) ∈ moves ↔
    m ∈ g.missing ∧ verdict full g.functions m = .ok (.target key)
  /-- A name stays missing if its verdict leaves it open. -/
  missing : g'.missing = g.missing.filter fun m => !isSettled (verdict full g.functions m)
  count : g.missing.length = g'.missing.length + n

theorem missing_and_count {missing resolved : List String} (hmissing : missing.Nodup)
    (hresolved : resolved.Nodup) (settled : String → Bool)
    (hmem : ∀ m, m ∈ resolved ↔ m ∈ missing ∧ settled m = true) :
    (missing.filter (!resolved.contains ·)) = (missing.filter fun m => !settled m) ∧
      missing.length = (missing.filter (!resolved.contains ·)).length + resolved.length := by
  have hsame : ∀ m ∈ missing, resolved.contains m = settled m := by
    intro m hm
    rw [Bool.eq_iff_iff, contains_iff_mem, hmem]
    simp [hm]
  have hfilter : (missing.filter (!resolved.contains ·)) = (missing.filter fun m => !settled m) :=
    filter_congr fun m hm => by rw [hsame m hm]
  have hperm : resolved.Perm (missing.filter settled) := by
    refine (perm_ext_iff_of_nodup hresolved (hmissing.filter settled)).2 fun m => ?_
    rw [hmem, mem_filter]
  refine ⟨hfilter, ?_⟩
  rw [hfilter, hperm.length_eq, Nat.add_comm]
  exact length_eq_length_filter_add settled

theorem moves_nil (fs : Functions) : Moves fs [] := ⟨by simp, by simp, by simp⟩

theorem foldlM_resolveByName (hfs : fs.Named) (byScope : Bool) (hfirst : first.Nodup)
    {p : Progress} (h : first.foldlM (resolveByName byScope) { functions := fs } = .ok p) :
    (∀ m ∈ first, ∃ v, verdictByName byScope fs m = .ok v) ∧
      Moves fs (movesOf (verdictByName byScope fs) first) ∧
      p.functions = redirectAll (movesOf (verdictByName byScope fs) first) fs ∧
      p.resolved = first.filter fun m => isSettled (verdictByName byScope fs m) := by
  have hstep : resolveByName byScope =
      fun p m => (verdictByName byScope p.functions m).map (p.settle m) := by
    funext p m
    exact resolveByName_eq m byScope p
  rw [hstep] at h
  exact foldlM_settle (verdictByName byScope) first hfirst
    (fun m _ moves hmoves hm => verdictByName_redirectAll hfs hmoves hm)
    (fun m _ key hkey => has_of_verdictByName hkey) [] (moves_nil fs) (by simp) _ p rfl h

theorem resolveIn_names_outcome (hnamed : g.functions.Named) (hset : g.missing.Nodup)
    (hfirst : first.Perm g.missing) (h : resolveIn first second false g = .ok (g', n)) :
    ∃ moves, Outcome false g g' n moves := by
  obtain ⟨p, hpass, h⟩ := exists_of_bind_eq_ok h
  cases h
  have hnodup : first.Nodup := hfirst.nodup_iff.2 hset
  obtain ⟨_, hmoves, hfunctions, hresolved⟩ := foldlM_resolveByName hnamed true hnodup hpass
  have hmem : ∀ m, m ∈ p.resolved ↔
      m ∈ g.missing ∧ isSettled (verdict false g.functions m) = true := by
    intro m
    rw [hresolved, mem_filter, hfirst.mem_iff]
    rfl
  obtain ⟨hmissing, hcount⟩ := missing_and_count hset
    (hresolved ▸ hnodup.filter _) _ hmem
  refine ⟨_, hmoves, hfunctions, ?_, hmissing, hcount⟩
  intro m key
  rw [mem_movesOf, hfirst.mem_iff]
  rfl

theorem foldlM_resolveBySignature (hfs : fs.Named) {left : List String} (hleft : left.Nodup)
    (hnew : ∀ m ∈ left, fs.has m = false) {moves : List (String × String)}
    (hmoves : Moves fs moves) (hapart : ∀ m ∈ left, m ∉ moves.map Prod.fst) {p p' : Progress}
    (hp : p.functions = redirectAll moves fs) (h : left.foldlM resolveBySignature p = .ok p') :
    Moves fs (moves ++ movesOf (verdictBySignature fs) left) ∧
      p'.functions = redirectAll (moves ++ movesOf (verdictBySignature fs) left) fs ∧
      p'.resolved = p.resolved ++ left.filter fun m => isSettled (verdictBySignature fs m) := by
  have hstep : resolveBySignature =
      fun p m => (verdictBySignature p.functions m).map (p.settle m) := by
    funext p m
    exact resolveBySignature_eq m p
  have htarget : ∀ m ∈ left, ∀ key, verdictBySignature fs m = .ok (.target key) →
      fs.has m = false ∧ fs.has key = true := by
    intro m hm key hkey
    rcases verdictBySignature_cases hkey with hv | ⟨key', hv, hhas⟩
    · cases hv
    · cases hv
      exact ⟨hnew m hm, hhas⟩
  rw [hstep] at h
  exact (foldlM_settle verdictBySignature left hleft
    (fun m hm moves hmoves hnot => verdictBySignature_redirectAll hfs hmoves hnot (hnew m hm))
    htarget moves hmoves hapart p p' hp h).2

theorem resolveIn_full_outcome (hnamed : g.functions.Named) (hset : g.missing.Nodup)
    (hfirst : first.Perm g.missing) (hsecond : second.Perm g.missing)
    (h : resolveIn first second true g = .ok (g', n)) : ∃ moves, Outcome true g g' n moves := by
  obtain ⟨_, _, h⟩ := exists_of_bind_eq_ok h
  obtain ⟨p, hpass, h⟩ := exists_of_bind_eq_ok h
  obtain ⟨p', hpass', h⟩ := exists_of_bind_eq_ok h
  cases h
  have hnodup : first.Nodup := hfirst.nodup_iff.2 hset
  obtain ⟨hok, hmoves, hfunctions, hresolved⟩ := foldlM_resolveByName hnamed false hnodup hpass
  have hverdict : ∀ m ∈ g.missing, verdict true g.functions m =
      if isSettled (verdictByName false g.functions m) then verdictByName false g.functions m
      else verdictBySignature g.functions m := by
    intro m hm
    obtain ⟨v, hv⟩ := hok m (hfirst.mem_iff.2 hm)
    exact verdict_true_eq hv
  generalize hleft : second.filter (!p.resolved.contains ·) = left at hpass'
  have hmemleft : ∀ m, m ∈ left ↔
      m ∈ g.missing ∧ isSettled (verdictByName false g.functions m) = false := by
    intro m
    rw [← hleft, mem_filter, hsecond.mem_iff, hresolved]
    refine and_congr_right fun hm => ?_
    simp [mem_filter, hfirst.mem_iff, hm]
  have hnodup' : left.Nodup := by
    rw [← hleft]
    exact (hsecond.nodup_iff.2 hset).filter _
  -- a name that is left is no function and has not been redirected: the first pass settles both
  have hnew : ∀ m ∈ left, g.functions.has m = false := by
    intro m hm
    by_contra hhas
    have hknown : verdictByName false g.functions m = .ok .known :=
      verdictByName_eq_known_iff.2 (by simpa using hhas)
    have hopen := ((hmemleft m).1 hm).2
    rw [hknown] at hopen
    cases hopen
  have hapart : ∀ m ∈ left, m ∉ (movesOf (verdictByName false g.functions) first).map Prod.fst := by
    intro m hm hmem
    obtain ⟨_, key, hkey⟩ := exists_of_mem_sources hmem
    have hopen := ((hmemleft m).1 hm).2
    rw [hkey] at hopen
    cases hopen
  obtain ⟨hmoves', hfunctions', hresolved'⟩ :=
    foldlM_resolveBySignature hnamed hnodup' hnew hmoves hapart hfunctions hpass'
  have hmem : ∀ m, m ∈ p'.resolved ↔
      m ∈ g.missing ∧ isSettled (verdict true g.functions m) = true := by
    intro m
    rw [hresolved', hresolved, mem_append, mem_filter, mem_filter, hmemleft, hfirst.mem_iff]
    by_cases hm : m ∈ g.missing
    · rw [hverdict m hm]
      cases hname : isSettled (verdictByName false g.functions m) <;> simp [hm, hname]
    · simp [hm]
  have hdistinct : p'.resolved.Nodup := by
    rw [hresolved', hresolved]
    refine List.Nodup.append (hnodup.filter _) (hnodup'.filter _) ?_
    intro m hm hm'
    have hopen := ((hmemleft m).1 (mem_of_mem_filter hm')).2
    have hsettled := (mem_filter.1 hm).2
    rw [hopen] at hsettled
    cases hsettled
  obtain ⟨hmissing, hcount⟩ := missing_and_count hset hdistinct _ hmem
  refine ⟨_, hmoves', hfunctions', ?_, hmissing, hcount⟩
  intro m key
  rw [mem_append, mem_movesOf, mem_movesOf, hmemleft, hfirst.mem_iff]
  by_cases hm : m ∈ g.missing
  · rw [hverdict m hm]
    cases hname : isSettled (verdictByName false g.functions m) with
    | true => simp [hm]
    | false =>
      have hopen : verdictByName false g.functions m ≠ .ok (.target key) := by
        intro hkey
        rw [hkey] at hname
        cases hname
      simp [hm, hopen]
  · simp [hm]

/-- In some orders the resolution ends with the graph `g'` and the count `n`. -/
def Resolves (mode : CrossReferenceMode) (g g' : CallGraph) (n : Nat) : Prop :=
  mode ≠ .basic ∧ ∃ first second, first.Perm g.missing ∧ second.Perm g.missing ∧
    resolveIn first second (mode == .full) g = .ok (g', n)

theorem resolves_of_resolveMissing (h : resolveMissing mode g = .ok (g', some n)) :
    Resolves mode g g' n := by
  have hsorted : (Text.sorted g.missing).Perm g.missing := mergeSort_perm _ _
  unfold resolveMissing at h
  split_ifs at h with hmode
  · cases h
  · obtain ⟨⟨g₁, n₁⟩, hresolve, h⟩ := exists_of_bind_eq_ok h
    cases h
    exact ⟨by simpa using hmode, _, _, hsorted, hsorted, hresolve⟩

theorem Resolves.outcome_of_named (hnamed : g.functions.Named) (hset : g.missing.Nodup)
    (h : Resolves mode g g' n) : ∃ moves, Outcome (mode == .full) g g' n moves := by
  obtain ⟨_, first, second, hfirst, hsecond, h⟩ := h
  cases hfull : mode == .full with
  | true =>
    rw [hfull] at h
    exact resolveIn_full_outcome hnamed hset hfirst hsecond h
  | false =>
    rw [hfull] at h
    exact resolveIn_names_outcome hnamed hset hfirst h

theorem Resolves.outcome (hg : g.Tidy) (h : Resolves mode g g' n) :
    ∃ moves, Outcome (mode == .full) g g' n moves :=
  h.outcome_of_named hg.functions.named hg.missing

namespace Outcome

variable {full : Bool} {moves : List (String × String)}

variable (hg : g.Tidy) (ho : Outcome full g g' n moves)
include ho

theorem keys_eq : g'.functions.keys = g.functions.keys := by
  rw [ho.functions, keys_redirectAll]

include hg

theorem tidy : g'.Tidy where
  functions := by
    rw [ho.functions]
    exact tidy_redirectAll hg.functions ho.valid
  missing := by
    rw [ho.missing]
    exact hg.missing.filter _

theorem closed (hclosed : g.Closed) : g'.Closed := by
  intro f c hcalls
  rw [Dict.has_eq_of_keys_eq ho.keys_eq]
  rw [ho.functions, calls_redirectAll hg.functions ho.valid] at hcalls
  rcases hcalls with ⟨hold, hnot⟩ | ⟨m, hmove, _⟩
  · rcases hclosed f c hold with hknown | hmissing
    · exact .inl hknown
    · rw [ho.missing, mem_filter]
      cases hverdict : verdict full g.functions c with
      | error e => exact .inr ⟨hmissing, rfl⟩
      | ok v =>
        cases v with
        | unresolved => exact .inr ⟨hmissing, rfl⟩
        | known => exact .inl (has_of_verdict_eq_known hverdict)
        | target key =>
          have hmove := (ho.mem_moves c key).2 ⟨hmissing, hverdict⟩
          exact (hnot (mem_map.2 ⟨(c, key), hmove, rfl⟩)).elim
  · exact .inl (ho.valid.target (m, c) hmove)

theorem mirrored (hmirrored : g.Mirrored) : g'.Mirrored := by
  intro f c hf hc
  rw [Dict.has_eq_of_keys_eq ho.keys_eq] at hf hc
  have hkey : c ∉ moves.map Prod.fst := by
    intro hmem
    obtain ⟨move, hmove, rfl⟩ := mem_map.1 hmem
    have hsource := ho.valid.source move hmove
    rw [hc] at hsource
    cases hsource
  rw [ho.functions, calls_redirectAll hg.functions ho.valid,
    calledBy_redirectAll hg.functions ho.valid, hmirrored f c hf hc]
  simp [hkey]

end Outcome

/-- The resolution runs in one of the orders, and in all orders it keeps the functions, takes names
only away from the missing ones and counts them. A graph in which all that is called is known stays
one, and so does a graph in which calls and callers agree. -/
theorem resolves_keeps_graph (mode : CrossReferenceMode) {g : CallGraph} (hg : g.Tidy) :
    (∀ g' n, resolveMissing mode g = .ok (g', some n) → Resolves mode g g' n) ∧
      ∀ g' n, Resolves mode g g' n →
        g'.functions.keys = g.functions.keys ∧
          (g'.missing ⊆ g.missing ∧ g.missing.length = g'.missing.length + n) ∧
          g'.Tidy ∧ (g.Closed → g'.Closed) ∧ (g.Mirrored → g'.Mirrored) := by
  refine ⟨fun g' n h => resolves_of_resolveMissing h, fun g' n h => ?_⟩
  obtain ⟨moves, ho⟩ := h.outcome hg
  have hsubset : g'.missing ⊆ g.missing := by
    rw [ho.missing]
    exact filter_subset_self _
  exact ⟨ho.keys_eq, ⟨hsubset, ho.count⟩, ho.tidy hg, ho.closed hg, ho.mirrored hg⟩

/-- Three calls of missing names: of the first one the name decides, of the second one the call
site or the scope of the caller, and the third one stays missing. -/
def scatteredCalls : CallGraph where
  functions :=
    [("app::run",
        { name := "app::run", calls := ["area", "log", "open"],
          metadata := some
            [("namespace", .str "io"),
              ("call_sites", .arr [.obj [("target", .str "log"), ("arg_count", .int 1)]])] }),
      ("geo::area", { name := "geo::area", calls := ["io::log"], metadata := some [] }),
      ("io::log",
        { name := "io::log", calledBy := ["geo::area"],
          metadata := some
            [("namespace", .str "io"), ("signature", .str "log(1)"), ("param_count", .int 1)] }),
      ("sys::log", { name := "sys::log", metadata := some [("namespace", .str "sys")] })]
  missing := ["area", "log", "open"]

theorem tidy_scatteredCalls : scatteredCalls.Tidy :=
  ⟨Functions.tidy_of_entries (by decide) (by decide), by decide⟩

/-- The graph of scattered calls is in shape, and stays so. -/
theorem resolves_scatteredCalls :
    scatteredCalls.Tidy ∧ scatteredCalls.Closed ∧ scatteredCalls.Mirrored ∧
      ∃ g', resolveMissing .full scatteredCalls = .ok (g', some 2) ∧ g'.missing = ["open"] ∧
        (g'.functions.get? "app::run").map (·.calls) = some ["open", "geo::area", "io::log"] ∧
        g'.Closed ∧ g'.Mirrored := by
  have hclosed : scatteredCalls.Closed := CallGraph.closed_of_entries (by decide)
  have hmirrored : scatteredCalls.Mirrored := CallGraph.mirrored_of_entries (by decide)
  have hsorted : Text.sorted scatteredCalls.missing = scatteredCalls.missing :=
    mergeSort_of_pairwise (by decide)
  have hrun : resolveMissing .full scatteredCalls =
      .ok (((resolveIn scatteredCalls.missing scatteredCalls.missing true
        scatteredCalls).toOption.getD default).1, some 2) := by
    unfold resolveMissing
    rw [hsorted]
    rfl
  obtain ⟨hruns, hkeeps⟩ := resolves_keeps_graph .full tidy_scatteredCalls
  obtain ⟨_, _, _, hkeptClosed, hkeptMirrored⟩ := hkeeps _ _ (hruns _ _ hrun)
  exact ⟨tidy_scatteredCalls, hclosed, hmirrored, _, hrun, by rfl, by rfl, hkeptClosed hclosed,
    hkeptMirrored hmirrored⟩

/-- The resolution comes to the same result in all orders. -/
theorem resolves_order_free {mode : CrossReferenceMode} {g g₁ g₂ : CallGraph} {n₁ n₂ : Nat}
    (hg : g.Tidy) (h₁ : Resolves mode g g₁ n₁) (h₂ : Resolves mode g g₂ n₂) :
    n₁ = n₂ ∧ (∀ m, m ∈ g₁.missing ↔ m ∈ g₂.missing) ∧
      g₁.functions.keys = g₂.functions.keys ∧
      ∀ f c, (g₁.functions.Calls f c ↔ g₂.functions.Calls f c) ∧
        (g₁.functions.CalledBy c f ↔ g₂.functions.CalledBy c f) := by
  obtain ⟨moves₁, ho₁⟩ := h₁.outcome hg
  obtain ⟨moves₂, ho₂⟩ := h₂.outcome hg
  have hmissing : g₁.missing = g₂.missing := ho₁.missing.trans ho₂.missing.symm
  have hmoves : ∀ m key, (m, key) ∈ moves₁ ↔ (m, key) ∈ moves₂ := by
    intro m key
    rw [ho₁.mem_moves, ho₂.mem_moves]
  have hsources : ∀ c, c ∈ moves₁.map Prod.fst ↔ c ∈ moves₂.map Prod.fst := by
    intro c
    simp [hmoves]
  refine ⟨?_, ?_, ho₁.keys_eq.trans ho₂.keys_eq.symm, ?_⟩
  · have hcount₁ := ho₁.count
    have hcount₂ := ho₂.count
    rw [hmissing] at hcount₁
    omega
  · intro m
    rw [hmissing]
  · intro f c
    rw [ho₁.functions, ho₂.functions, calls_redirectAll hg.functions ho₁.valid,
      calls_redirectAll hg.functions ho₂.valid, calledBy_redirectAll hg.functions ho₁.valid,
      calledBy_redirectAll hg.functions ho₂.valid, hsources]
    simp [hmoves]

/-- Two orders give two lists of calls with the same members. -/
theorem resolves_scatteredCalls_reverse :
    scatteredCalls.Tidy ∧ ∃ g₁ g₂, Resolves .enhanced scatteredCalls g₁ 2 ∧
      Resolves .enhanced scatteredCalls g₂ 2 ∧
      (g₁.functions.get? "app::run").map (·.calls) = some ["open", "geo::area", "io::log"] ∧
      (g₂.functions.get? "app::run").map (·.calls) = some ["open", "io::log", "geo::area"] ∧
      ∀ f c, g₁.functions.Calls f c ↔ g₂.functions.Calls f c := by
  have h₁ : Resolves .enhanced scatteredCalls
      ((resolveIn ["area", "log", "open"] ["area", "log", "open"] false
        scatteredCalls).toOption.getD default).1 2 :=
    ⟨by decide, _, _, List.Perm.refl _, List.Perm.refl _, by rfl⟩
  have h₂ : Resolves .enhanced scatteredCalls
      ((resolveIn ["open", "log", "area"] ["area", "log", "open"] false
        scatteredCalls).toOption.getD default).1 2 :=
    ⟨by decide, ["open", "log", "area"], _, by decide, List.Perm.refl _, by rfl⟩
  obtain ⟨_, _, _, hcalls⟩ := resolves_order_free tidy_scatteredCalls h₁ h₂
  exact ⟨tidy_scatteredCalls, _, _, h₁, h₂, by rfl, by rfl, fun f c => (hcalls f c).1⟩

end Resolution

end CodeAtlas

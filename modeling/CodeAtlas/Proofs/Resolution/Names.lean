import CodeAtlas.Proofs.Resolution.Outcome
import CodeAtlas.Proofs.Text

/-!
# Which function a missing name stands for

A missing name is resolved by its last part as long as that can be: then the
function it stands for has the same last part (`lastPart_of_verdictByName`).
What stands in angle brackets belongs to the last part unless it has a scope in
it, so the names also agree without their template arguments
(`lastPart_withoutArguments`).

With full analysis there is a second way. If no function with the likely number
of parameters has the last part, the best of them is taken whatever its name is
(`ChosenByCount`). `resolves_by_name_or_count` says that there is no third way.
-/

namespace CodeAtlas.Resolution

open Functions Text List

variable {name missing key : String} {full : Bool} {fs : Functions}

/-! ### Names -/

/-- The name up to its template arguments. -/
def withoutArguments (name : String) : String :=
  String.ofList (name.toList.takeWhile (· != '<'))

/-- The template arguments of a name, if it has any. -/
def argumentsOf (name : String) : List Char := name.toList.dropWhile (· != '<')

theorem head_argumentsOf {c : Char} {cs : List Char} (h : argumentsOf name = c :: cs) :
    c = '<' := by
  have hhead := head?_dropWhile_not (· != '<') name.toList
  rw [← argumentsOf, h] at hhead
  simpa using hhead

theorem endsWith_lastPart (name : String) : endsWith name (lastPart name) = true := by
  obtain ⟨front, last, hsplit⟩ : ∃ front last, split name "::" = front ++ [last] := by
    have hne : split name "::" ≠ [] := by simp [split, splitList]
    exact ⟨_, _, (dropLast_append_getLast hne).symm⟩
  have hjoin : join "::" (front ++ [last]) = name := by
    rw [← hsplit, join_split_of_ne name (by decide)]
  have hends := endsWith_join "::" front last
  rwa [hjoin, ← getLastD_concat (a := "") (b := last) (l := front), ← hsplit] at hends

theorem lastPart_eq_append (h : ¬ "::".toList <:+: argumentsOf name) :
    (lastPart name).toList = (lastPart (withoutArguments name)).toList ++ argumentsOf name := by
  have hseam : ∀ c cs, "::".toList <+: c :: (cs ++ argumentsOf name) → "::".toList <+: c :: cs := by
    intro c cs hstart
    have hcons : "::".toList = [':', ':'] := rfl
    rw [hcons, cons_prefix_cons] at hstart ⊢
    refine ⟨hstart.1, ?_⟩
    cases cs with
    | nil =>
      cases harguments : argumentsOf name with
      | nil => simpa [harguments] using hstart.2
      | cons d rest =>
        rw [harguments, head_argumentsOf harguments] at hstart
        simp at hstart
    | cons d cs => simpa using hstart.2
  obtain ⟨front, last, hcut, hwhole⟩ := splitList_append_tail (by decide) h hseam
    (name.toList.takeWhile (· != '<'))
  rw [argumentsOf, takeWhile_append_dropWhile] at hwhole
  have hlast : ∀ s : String,
      (lastPart s).toList = (splitList "::".toList s.toList).getLastD [] := by
    intro s
    simp [lastPart, split]
  rw [hlast, hlast, withoutArguments, String.toList_ofList (l := takeWhile _ _), hcut, hwhole]
  simp [argumentsOf]

theorem lastPart_withoutArguments {name' : String} (h : ¬ "::".toList <:+: argumentsOf name)
    (h' : ¬ "::".toList <:+: argumentsOf name') (hlast : lastPart name = lastPart name') :
    lastPart (withoutArguments name) = lastPart (withoutArguments name') := by
  have hcut : ∀ {name : String}, ¬ "::".toList <:+: argumentsOf name →
      (lastPart name).toList.takeWhile (· != '<') = (lastPart (withoutArguments name)).toList := by
    intro name h
    have hfree : ∀ c ∈ (lastPart (withoutArguments name)).toList, (c != '<') = true := by
      intro c hc
      have hends := (endsWith_iff.1 (endsWith_lastPart (withoutArguments name))).subset hc
      rw [withoutArguments, String.toList_ofList] at hends
      exact mem_takeWhile_imp (p := (· != '<')) hends
    have hrest : (argumentsOf name).takeWhile (· != '<') = [] := by
      cases harguments : argumentsOf name with
      | nil => rfl
      | cons d rest => rw [head_argumentsOf harguments, takeWhile_cons_of_neg (by simp)]
    rw [lastPart_eq_append h, takeWhile_append_of_pos hfree, hrest, append_nil]
  rw [← String.toList_inj, ← hcut h, ← hcut h', hlast]

/-! ### Verdicts -/

theorem lastPart_of_verdictByName {byScope : Bool}
    (h : verdictByName byScope fs missing = .ok (.target key)) :
    lastPart key = lastPart missing := by
  obtain ⟨f, hf⟩ := (Dict.has_iff _ _).1 (has_candidates_of_verdictByName h).2
  simpa using (mem_filter.1 (Dict.mem_of_get? hf)).2

/-- The function has the number of parameters that the calls of the missing name have most often,
no function of that number has its last part, and none of them has more points. -/
def ChosenByCount (fs : Functions) (missing key : String) : Prop :=
  ∃ clues count f n, readClues fs missing = .ok clues ∧ clues.count? = some count ∧
    (key, f) ∈ withParamCount fs count ∧
    (∀ other ∈ withParamCount fs count, lastPart other.2.name ≠ lastPart missing) ∧
    (score fs missing clues f = .ok n ∧ threshold < n) ∧
    ∀ other ∈ withParamCount fs count, ∃ n' ≤ n, score fs missing clues other.2 = .ok n'

theorem chosen_of_verdictBySignature (hnamed : ∀ entry ∈ fs, entry.2.name = entry.1)
    (h : verdictBySignature fs missing = .ok (.target key)) :
    lastPart key = lastPart missing ∨ ChosenByCount fs missing key := by
  rcases exists_best_of_verdictBySignature h with hv | ⟨clues, _, n, hclues, hbest, hn, ⟨⟩⟩
  · cases hv
  have hisBest := isBest_best? hbest
  obtain ⟨f, hf, hscore⟩ := hisBest.seen key n rfl
  rcases potentialMatches_cases fs missing clues with hname | ⟨count, hcount, hall, hnone⟩
  · obtain ⟨hmem, hlast⟩ := hname (key, f) hf
    have hkey : f.name = key := hnamed (key, f) hmem
    exact .inl (hkey ▸ hlast)
  · rw [hall] at hf hisBest
    refine .inr ⟨clues, count, f, n, hclues, hcount, hf, hnone, ⟨hscore, hn⟩, ?_⟩
    intro other hother
    obtain ⟨_, _, ⟨⟩, hpoints⟩ := hisBest.most other hother
    exact hpoints

/-! ### The resolution -/

theorem verdict_eq_known_iff (full : Bool) (fs : Functions) (m : String) :
    verdict full fs m = .ok .known ↔ fs.has m = true := by
  refine ⟨has_of_verdict_eq_known, fun hhas => ?_⟩
  unfold verdict
  cases full <;> simp [verdictByName_eq_known_iff.2 hhas]

theorem chosen_of_verdict (hnamed : ∀ entry ∈ fs, entry.2.name = entry.1)
    (h : verdict full fs missing = .ok (.target key)) :
    lastPart key = lastPart missing ∨ full = true ∧ ChosenByCount fs missing key := by
  unfold verdict at h
  cases full with
  | false => exact .inl (lastPart_of_verdictByName h)
  | true =>
    rw [if_pos rfl] at h
    split at h
    · exact (chosen_of_verdictBySignature hnamed h).imp_right fun hcount => ⟨rfl, hcount⟩
    · exact .inl (lastPart_of_verdictByName h)

theorem verdict_of_single {f : Function} (hnew : fs.has missing = false)
    (h : candidates fs (lastPart missing) = [(key, f)]) :
    verdict full fs missing = .ok (.target key) := by
  have hname : ∀ byScope, verdictByName byScope fs missing = .ok (.target key) := by
    intro byScope
    simp [verdictByName, hnew, h]
  unfold verdict
  cases full <;> simp [hname]

theorem Outcome.mem_missing_iff {g g' : CallGraph} {n : Nat} {moves : List (String × String)}
    (ho : Outcome full g g' n moves) (m : String) :
    m ∈ g'.missing ↔ m ∈ g.missing ∧ g.functions.has m = false ∧ m ∉ moves.map Prod.fst := by
  rw [ho.missing, mem_filter]
  refine and_congr_right fun hm => ?_
  have hmoved : m ∈ moves.map Prod.fst ↔ ∃ key, verdict full g.functions m = .ok (.target key) := by
    simp [ho.mem_moves, hm]
  rw [hmoved, ← Bool.not_eq_true, ← verdict_eq_known_iff full]
  cases verdict full g.functions m with
  | error e => simp [isSettled]
  | ok v => cases v <;> simp [isSettled, Verdict.isResolved]

/-- Whatever the order, the callers of a missing name are only redirected to a function whose name
has the same last part or, with full analysis, to one that is chosen by the number of its
parameters because no function of that number has the last part. A name without such a function
stays missing, and if just one function has the last part of a name, the callers are redirected to
it. -/
theorem resolves_by_name_or_count {mode : CrossReferenceMode} {g g' : CallGraph} {n : Nat}
    (hnamed : ∀ entry ∈ g.functions, entry.2.name = entry.1) (hset : g.missing.Nodup)
    (h : Resolves mode g g' n) :
    ∃ moves, g'.functions = redirectAll moves g.functions ∧
      (∀ f c, g'.functions.Calls f c →
        g.functions.Calls f c ∨ ∃ m, (m, c) ∈ moves ∧ g.functions.Calls f m) ∧
      (∀ m c, (m, c) ∈ moves →
        m ∈ g.missing ∧ g.functions.has m = false ∧ g.functions.has c = true ∧
          (lastPart c = lastPart m ∧
              (¬ "::".toList <:+: argumentsOf c → ¬ "::".toList <:+: argumentsOf m →
                lastPart (withoutArguments c) = lastPart (withoutArguments m)) ∨
            mode = .full ∧ ChosenByCount g.functions m c)) ∧
      (∀ m ∈ g.missing, g.functions.has m = false →
        ∀ c f, candidates g.functions (lastPart m) = [(c, f)] → (m, c) ∈ moves) ∧
      (∀ m, m ∈ g'.missing ↔
        m ∈ g.missing ∧ g.functions.has m = false ∧ m ∉ moves.map Prod.fst) ∧
      ∀ m ∈ g.missing, (∀ c, g.functions.has c = true → lastPart c ≠ lastPart m) →
        (mode = .full → ∀ c, ¬ ChosenByCount g.functions m c) → m ∈ g'.missing := by
  have hkeys : g.functions.Named := fun key f hf => hnamed (key, f) (Dict.mem_of_get? hf)
  obtain ⟨moves, ho⟩ := h.outcome_of_named hkeys hset
  have hchosen : ∀ m c, (m, c) ∈ moves → lastPart c = lastPart m ∨
      mode = .full ∧ ChosenByCount g.functions m c := by
    intro m c hmove
    have hverdict := ((ho.mem_moves m c).1 hmove).2
    exact (chosen_of_verdict hnamed hverdict).imp_right fun hcount =>
      ⟨by simpa using hcount.1, hcount.2⟩
  refine ⟨moves, ho.functions, fun f c hcalls => ?_, fun m c hmove => ?_,
    fun m hm hnew c f hsingle => (ho.mem_moves m c).2 ⟨hm, verdict_of_single hnew hsingle⟩,
    ho.mem_missing_iff, fun m hm hname hcount => ?_⟩
  · rw [ho.functions] at hcalls
    exact calls_of_redirectAll hkeys ho.valid hcalls
  · refine ⟨((ho.mem_moves m c).1 hmove).1, ho.valid.source _ hmove, ho.valid.target _ hmove,
      (hchosen m c hmove).imp_left fun hlast => ⟨hlast, fun hc hm => ?_⟩⟩
    exact lastPart_withoutArguments hc hm hlast
  · refine (ho.mem_missing_iff m).2 ⟨hm, ?_, ?_⟩
    · rw [← Bool.not_eq_true]
      exact fun hhas => hname m hhas rfl
    · intro hmoved
      obtain ⟨⟨m', c⟩, hmove, rfl⟩ := mem_map.1 hmoved
      rcases hchosen m' c hmove with hlast | ⟨hfull, hchosen⟩
      · exact hname c (ho.valid.target _ hmove) hlast
      · exact hcount hfull c hchosen

/-- Two calls of missing names: the first one has the last part of a function, the second one only
the number of arguments of another one. -/
def renamedCall : CallGraph where
  functions :=
    [("main",
        { name := "main", calls := ["io::read", "load"],
          metadata := some
            [("call_sites", .arr [.obj [("target", .str "load"), ("arg_count", .int 1)]])] }),
      ("store",
        { name := "store",
          metadata := some [("signature", .str "store(1)"), ("param_count", .int 1)] }),
      ("sys::read", { name := "sys::read", metadata := some [] })]
  missing := ["io::read", "load"]

theorem exists_resolves_renamedCall :
    ∃ g', Resolves .full renamedCall g' 2 ∧ g'.missing = [] ∧
      (g'.functions.get? "main").map (·.calls) = some ["sys::read", "store"] := by
  have hrun : resolveIn renamedCall.missing renamedCall.missing true renamedCall =
      .ok (((resolveIn renamedCall.missing renamedCall.missing true
        renamedCall).toOption.getD default).1, 2) := by rfl
  exact ⟨_, ⟨by decide, _, _, List.Perm.refl _, List.Perm.refl _, hrun⟩, by rfl, by rfl⟩

theorem resolves_renamedCall :
    (∀ entry ∈ renamedCall.functions, entry.2.name = entry.1) ∧ renamedCall.missing.Nodup ∧
      ∃ g', Resolves .full renamedCall g' 2 ∧ g'.functions.Calls "main" "store" ∧
        ∃ m ∈ renamedCall.missing, ChosenByCount renamedCall.functions m "store" := by
  have hnamed : ∀ entry ∈ renamedCall.functions, entry.2.name = entry.1 := by decide
  have hset : renamedCall.missing.Nodup := by decide
  obtain ⟨g', hresolves, -, hmain⟩ := exists_resolves_renamedCall
  have hstore : g'.functions.Calls "main" "store" := by
    obtain ⟨f, hf, hcalls⟩ := Option.map_eq_some_iff.1 hmain
    exact ⟨f, hf, by simp [hcalls]⟩
  refine ⟨hnamed, hset, _, hresolves, hstore, ?_⟩
  obtain ⟨moves, -, hcalls, hmoves, -⟩ := resolves_by_name_or_count hnamed hset hresolves
  have hother : ∀ m ∈ renamedCall.missing, lastPart "store" ≠ lastPart m := by decide
  rcases hcalls "main" "store" hstore with ⟨f, hf, hold⟩ | ⟨m, hm, -⟩
  · cases hf
    exact absurd hold (by decide)
  · obtain ⟨hmissing, -, -, ⟨hlast, -⟩ | ⟨-, hchosen⟩⟩ := hmoves m "store" hm
    · exact absurd hlast (hother m hmissing)
    · exact ⟨m, hmissing, hchosen⟩

/-- A call of a missing name and a function that differ, with a scope in their brackets. -/
def bracketedScope : CallGraph where
  functions :=
    [("main", { name := "main", calls := ["b<x::y>"], metadata := some [] }),
      ("a<x::y>", { name := "a<x::y>", metadata := some [] })]
  missing := ["b<x::y>"]

/-- A call may be redirected to a function of another name: with full analysis for its number of
arguments, and in any case for what stands behind a scope in its brackets. -/
theorem redirected_to_other_name :
    (∃ g', Resolves .full renamedCall g' 2 ∧ g'.missing = [] ∧
      (g'.functions.get? "main").map (·.calls) = some ["sys::read", "store"] ∧
      ∀ m ∈ renamedCall.missing,
        lastPart (withoutArguments "store") ≠ lastPart (withoutArguments m)) ∧
      ∃ g', Resolves .enhanced bracketedScope g' 1 ∧ g'.missing = [] ∧
        (g'.functions.get? "main").map (·.calls) = some ["a<x::y>"] ∧
        lastPart (withoutArguments "a<x::y>") ≠ lastPart (withoutArguments "b<x::y>") := by
  obtain ⟨g', hfull, hmissing, hmain⟩ := exists_resolves_renamedCall
  have henhanced : Resolves .enhanced bracketedScope
      ((resolveIn bracketedScope.missing bracketedScope.missing false
        bracketedScope).toOption.getD default).1 1 :=
    ⟨by decide, _, _, List.Perm.refl _, List.Perm.refl _, by rfl⟩
  exact ⟨⟨g', hfull, hmissing, hmain, by decide⟩, _, henhanced, by rfl, by rfl, by decide⟩

end CodeAtlas.Resolution

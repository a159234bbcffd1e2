import CodeAtlas.Finder.Store
import CodeAtlas.Proofs.Dict
import CodeAtlas.Proofs.Session

/-!
# Batches of changes

The nodes and the calls of a code base are written in transactions of a hundred
changes. A transaction that is full is committed and the next one begins, in the
middle of the loop over the calls of one function if need be, and the last one
is committed behind the loop.

At any moment of a loop the steps made so far are whole transactions followed by
the open one (`Writing`). One change keeps this (`Wrote.write`), so a loop over
any number of changes does (`Wrote.foldlM_write`), and the last commit leaves whole
transactions only (`Whole`). Their numbers are the positions of their first
steps, so no two share one, and every change falls between the beginning and the
only commit of its transaction (`Whole.orderly`).
-/

namespace CodeAtlas.Finder

open Run List Finder Dict

variable {session : Session} (s : List TransactionStep) (report : Nat → String)
  (t : List TransactionStep) (all : Dict Definition)

/-! ### Histories of transactions -/

/-- The numbers of the transactions begun. -/
def begunIn (steps : List TransactionStep) : List Nat :=
  steps.filterMap fun
    | .begun n => some n
    | _ => none

/-- The numbers of the transactions committed. -/
def committedIn (steps : List TransactionStep) : List Nat :=
  steps.filterMap fun
    | .committed n => some n
    | _ => none

def madeIn (steps : List TransactionStep) : List Request :=
  steps.filterMap fun
    | .made _ r => some r
    | _ => none

/-- Every request is made in a transaction that is begun and not yet committed, and that is
committed later exactly once. -/
def Orderly (steps : List TransactionStep) : Prop :=
  ∀ before n r after, steps = before ++ .made n r :: after →
    n ∈ begunIn before ∧ n ∉ committedIn before ∧ (committedIn after).count n = 1

theorem begunIn_append : begunIn (s ++ t) = begunIn s ++ begunIn t := filterMap_append

theorem committedIn_append : committedIn (s ++ t) = committedIn s ++ committedIn t :=
  filterMap_append

theorem madeIn_append : madeIn (s ++ t) = madeIn s ++ madeIn t := filterMap_append

theorem orderly_append {s t : List TransactionStep} (hs : Orderly s) (ht : Orderly t)
    (hst : ∀ n ∈ begunIn s, n ∉ committedIn t) (hts : ∀ n ∈ begunIn t, n ∉ committedIn s) :
    Orderly (s ++ t) := by
  have hlater : ∀ before n r after, t = before ++ .made n r :: after →
      n ∈ begunIn (s ++ before) ∧ n ∉ committedIn (s ++ before) ∧
        (committedIn after).count n = 1 := by
    intro before n r after heq
    obtain ⟨hbegun, hopen, hcount⟩ := ht before n r after heq
    have hin : n ∈ begunIn t := by
      rw [heq, begunIn_append]
      exact mem_append_left _ hbegun
    rw [begunIn_append, committedIn_append, mem_append, mem_append, not_or]
    exact ⟨.inr hbegun, ⟨hts n hin, hopen⟩, hcount⟩
  intro before n r after heq
  rcases append_eq_append_iff.1 heq with ⟨middle, rfl, hmiddle⟩ | ⟨middle, hs', hmiddle⟩
  · exact hlater middle n r after hmiddle
  · cases middle with
    | nil =>
      rw [append_nil] at hs'
      subst hs'
      simpa using hlater [] n r after hmiddle.symm
    | cons step rest =>
      obtain ⟨rfl, rfl⟩ := cons.inj hmiddle
      obtain ⟨hbegun, hopen, hcount⟩ := hs before n r rest hs'
      have hin : n ∈ begunIn s := by
        rw [hs', begunIn_append]
        exact mem_append_left _ hbegun
      refine ⟨hbegun, hopen, ?_⟩
      rw [append_eq, committedIn_append, count_append, hcount, count_eq_zero_of_not_mem (hst n hin)]

def transaction (n : Nat) (made : List Request) : List TransactionStep :=
  .begun n :: made.map (.made n) ++ [.committed n]

section

variable (n : Nat) (made : List Request)

theorem begunIn_transaction : begunIn (transaction n made) = [n] := by
  simp [transaction, begunIn, filterMap_map]

theorem committedIn_transaction : committedIn (transaction n made) = [n] := by
  simp [transaction, committedIn, filterMap_map]

theorem madeIn_transaction : madeIn (transaction n made) = made := by
  simp [transaction, madeIn, filterMap_map]

theorem orderly_transaction : Orderly (transaction n made) := by
  intro before k r after heq
  -- neither the first step nor the last one is a request
  obtain ⟨front, rfl⟩ : ∃ front, before = .begun n :: front := by
    cases before with
    | nil => cases heq
    | cons step front => exact ⟨front, by rw [(cons.inj heq).1]⟩
  have hrest := (cons.inj heq).2
  rcases append_eq_append_iff.1 hrest with ⟨middle, hfront, hlast⟩ | ⟨middle, hmade, hlast⟩
  · cases middle <;> simp at hlast
  · obtain ⟨done, left, rfl, rfl, rfl⟩ := map_eq_append_iff.1 hmade
    cases left with
    | nil => simp at hlast
    | cons request left =>
      obtain ⟨⟨rfl, rfl⟩, rfl⟩ : (k = n ∧ r = request) ∧
          after = left.map (.made n) ++ [.committed n] := by
        simpa using hlast
      simp [begunIn, committedIn, filterMap_map]

end

/-- Whole transactions, one after the other, and the requests made in them. `start` steps were
made before, and each transaction has the number of the steps before it. -/
inductive Whole (start : Nat) : List TransactionStep → List Request → Prop
  | nil : Whole start [] []
  | concat {steps : List TransactionStep} {made : List Request} (h : Whole start steps made)
      (rs : List Request) :
      Whole start (steps ++ transaction (start + steps.length) rs) (made ++ rs)

namespace Whole

variable {start : Nat} {steps : List TransactionStep} {made : List Request}

section

variable (h : Whole start steps made)
include h

theorem madeIn_eq : madeIn steps = made := by
  induction h with
  | nil => rfl
  | concat h rs ih => rw [madeIn_append, ih, madeIn_transaction]

theorem committedIn_eq : committedIn steps = begunIn steps := by
  induction h with
  | nil => rfl
  | concat h rs ih =>
    rw [committedIn_append, begunIn_append, ih, committedIn_transaction, begunIn_transaction]

theorem lt_of_mem_begunIn : ∀ n ∈ begunIn steps, n < start + steps.length := by
  induction h with
  | nil => intro n hn; cases hn
  | @concat steps made h rs ih =>
    intro n hn
    rw [begunIn_append, begunIn_transaction, mem_append, mem_singleton] at hn
    rw [length_append, transaction, length_append, length_cons]
    rcases hn with hn | rfl
    · have := ih n hn
      omega
    · omega

theorem not_mem_begunIn : start + steps.length ∉ begunIn steps :=
  fun hn => Nat.lt_irrefl _ (h.lt_of_mem_begunIn _ hn)

theorem nodup_begunIn : (begunIn steps).Nodup := by
  induction h with
  | nil => exact nodup_nil
  | @concat steps made h rs ih =>
    rw [begunIn_append, begunIn_transaction, nodup_append_comm, singleton_append, nodup_cons]
    exact ⟨h.not_mem_begunIn, ih⟩

theorem orderly : Orderly steps := by
  induction h with
  | nil =>
    intro before n r after heq
    simp at heq
  | @concat steps made h rs ih =>
    refine orderly_append ih (orderly_transaction _ rs) ?_ ?_
    · rw [committedIn_transaction]
      rintro n hn hmem
      exact h.not_mem_begunIn (mem_singleton.1 hmem ▸ hn)
    · rw [begunIn_transaction, h.committedIn_eq]
      simpa using h.not_mem_begunIn

theorem append {steps' : List TransactionStep} {made' : List Request}
    (h' : Whole (start + steps.length) steps' made') :
    Whole start (steps ++ steps') (made ++ made') := by
  induction h' with
  | nil => simpa using h
  | @concat steps' made' h' rs ih =>
    have hnext := ih.concat rs
    rwa [length_append, ← Nat.add_assoc, append_assoc, append_assoc] at hnext

end

end Whole

/-! ### One change -/

def logged : TransactionStep → List Request
  | .begun _ => []
  | .made _ r => [r]
  | .committed _ => [.call "commit" []]

def after (s : Session) (steps : List TransactionStep) (lines : List String) : Session :=
  { s with
    requests := (steps.flatMap logged).reverse ++ s.requests
    transactions := steps.reverse ++ s.transactions
    written := (lines.map (· ++ "\n")).reverse ++ s.written }

theorem after_after (s : Session) (steps steps' : List TransactionStep)
    (lines lines' : List String) :
    after (after s steps lines) steps' lines' = after s (steps ++ steps') (lines ++ lines') := by
  simp [after]

theorem length_transactions_after (s : Session) (steps : List TransactionStep)
    (lines : List String) :
    (after s steps lines).transactions.length = s.transactions.length + steps.length := by
  simp [after, Nat.add_comm]

theorem run_say (line : String) (s : Session) :
    (say line).run.run s = (.ok (), after s [] [line]) := rfl

theorem run_beginTransaction (s : Session) :
    beginTransaction.run.run s =
      (.ok s.transactions.length, after s [.begun s.transactions.length] []) := rfl

theorem run_make (n : Nat) (r : Request) (s : Session) :
    (make n r).run.run s = (.ok (), after s [.made n r] []) := rfl

theorem run_commit (n : Nat) (s : Session) :
    (commit n).run.run s = (.ok (), after s [.committed n] []) := rfl

theorem run_write (b : Batch) (r : Request) (s : Session) :
    (b.write report r).run.run s =
      if (b.count + 1) % batchSize = 0 then
        let next := s.transactions.length + 2
        (.ok ⟨next, b.count + 1⟩,
          after s [.made b.transaction r, .committed b.transaction, .begun next]
            [report (b.count + 1)])
      else (.ok ⟨b.transaction, b.count + 1⟩, after s [.made b.transaction r] []) := by
  rw [Batch.write, run_bind_of_ok (run_make b.transaction r s)]
  by_cases hfull : (b.count + 1) % batchSize = 0
  · rw [if_pos hfull, if_pos (by simpa using hfull), run_bind_of_ok (run_commit _ _),
      run_bind_of_ok (run_beginTransaction _), run_bind_of_ok (run_say _ _), after_after,
      after_after, after_after, length_transactions_after]
    rfl
  · rw [if_neg hfull, if_neg (by simpa using hfull)]
    rfl

/-- The steps so far, while a batch is open: whole transactions and the beginning of the last. -/
inductive Writing (start : Nat) : Batch → List TransactionStep → List Request → Prop
  | mk {steps : List TransactionStep} {made : List Request} (h : Whole start steps made)
      (rs : List Request) :
      Writing start ⟨start + steps.length, (made ++ rs).length⟩
        (steps ++ .begun (start + steps.length) :: rs.map (.made (start + steps.length)))
        (made ++ rs)

/-- Since `s₀`, requests were made in batches, of which `b` is open, and lines were written. -/
def Wrote (s₀ : Session) (b : Batch) (made : List Request) (lines : List String) (s : Session) :
    Prop :=
  ∃ steps, Writing s₀.transactions.length b steps made ∧ s = after s₀ steps lines

def reports (report : Nat → String) (n changes : Nat) : List String :=
  ((range' (n + 1) changes).filter (· % batchSize == 0)).map report

theorem reports_add (n k k' : Nat) :
    reports report n (k + k') = reports report n k ++ reports report (n + k) k' := by
  rw [reports, ← range'_append_1, filter_append, map_append, Nat.add_right_comm]
  rfl

theorem mem_reports {report : Nat → String} {n changes : Nat} {line : String}
    (h : line ∈ reports report n changes) : ∃ k ≤ n + changes, line = report k := by
  obtain ⟨k, hk, rfl⟩ := mem_map.1 h
  have hrange := mem_range'_1.1 (mem_of_mem_filter hk)
  exact ⟨k, by omega, rfl⟩

theorem reports_one (n : Nat) :
    reports report n 1 = if (n + 1) % batchSize = 0 then [report (n + 1)] else [] := by
  by_cases h : (n + 1) % batchSize = 0 <;> simp [reports, h]

theorem wrote_start (s₀ : Session) :
    ∃ b s, Batch.start.run.run s₀ = (.ok b, s) ∧ Wrote s₀ b [] [] s := by
  refine ⟨⟨s₀.transactions.length, 0⟩, after s₀ [.begun s₀.transactions.length] [], ?_, _,
    .mk .nil [], rfl⟩
  rw [Batch.start, run_bind_of_ok (run_beginTransaction _)]
  rfl

namespace Wrote

variable {s₀ s : Session} {b : Batch} {made : List Request} {lines : List String}

section

variable (h : Wrote s₀ b made lines s)
include h

theorem count_eq : b.count = made.length := by
  obtain ⟨steps, hsteps, -⟩ := h
  cases hsteps
  rfl

/-- A change goes into the open batch, which is closed if that makes it full. -/
theorem write (report : Nat → String) (r : Request) :
    ∃ b' s', (b.write report r).run.run s = (.ok b', s') ∧
      Wrote s₀ b' (made ++ [r]) (lines ++ reports report made.length 1) s' := by
  obtain ⟨_, ⟨hwhole, rs⟩, rfl⟩ := h
  next steps made =>
    rw [run_write, reports_one]
    by_cases hfull : ((made ++ rs).length + 1) % batchSize = 0
    · have hnext := Writing.mk (hwhole.concat (rs ++ [r])) []
      rw [if_pos hfull, if_pos hfull]
      refine ⟨_, _, rfl, _, ?_, after_after _ _ _ _ _⟩
      convert hnext using 1
      · simp [length_transactions_after, transaction, Nat.add_assoc]
      · simp [length_transactions_after, transaction, Nat.add_assoc]
      · simp
    · have hnext := Writing.mk hwhole (rs ++ [r])
      rw [if_neg hfull, if_neg hfull]
      refine ⟨_, _, rfl, _, ?_, after_after _ _ _ _ _⟩
      convert hnext using 1
      · simp [Nat.add_assoc]
      · simp
      · simp

theorem foldlM_write (report : Nat → String) (rs : List Request) :
    ∃ b' s', (rs.foldlM (Batch.write report) b).run.run s = (.ok b', s') ∧
      Wrote s₀ b' (made ++ rs) (lines ++ reports report made.length rs.length) s' := by
  induction rs generalizing b s made lines with
  | nil => exact ⟨b, s, rfl, by simpa [reports] using h⟩
  | cons r rs ih =>
    obtain ⟨b₁, s₁, hrun, h₁⟩ := h.write report r
    obtain ⟨b', s', hrun', h'⟩ := ih h₁
    refine ⟨b', s', ?_, ?_⟩
    · rw [foldlM_cons, run_bind_of_ok hrun, hrun']
    · rw [length_append, append_assoc, append_assoc] at h'
      rwa [length_cons, Nat.add_comm rs.length, reports_add]

theorem say (line : String) :
    ∃ s', (Run.say line).run.run s = (.ok (), s') ∧ Wrote s₀ b made (lines ++ [line]) s' := by
  obtain ⟨steps, hsteps, rfl⟩ := h
  refine ⟨_, rfl, steps, hsteps, ?_⟩
  simp [after]

theorem commit :
    ∃ steps, (commit b.transaction).run.run s = (.ok (), after s₀ steps lines) ∧
      Whole s₀.transactions.length steps made := by
  obtain ⟨_, ⟨hwhole, rs⟩, rfl⟩ := h
  refine ⟨_, ?_, hwhole.concat rs⟩
  rw [run_commit, after_after]
  simp [transaction]

end

end Wrote

/-! ### All nodes and all calls -/

theorem run_writeNodes (s₀ : Session) :
    ∃ steps, Whole s₀.transactions.length steps (all.map fun e => nodeOf e.1 e.2) ∧
      (writeNodes all).run.run s₀ =
        (.ok (), after s₀ steps (reports (nodesWritten all.length) 0 all.length)) := by
  obtain ⟨b, s, hstart, h⟩ := wrote_start s₀
  obtain ⟨b', s', hrun, h'⟩ :=
    h.foldlM_write (nodesWritten all.length) (all.map fun e => nodeOf e.1 e.2)
  obtain ⟨steps, hcommit, hwhole⟩ := h'.commit
  rw [foldlM_map] at hrun
  rw [length_map] at hcommit
  refine ⟨steps, hwhole, ?_⟩
  rw [writeNodes, run_bind_of_ok hstart]
  exact (run_bind_of_ok hrun).trans hcommit

def callsOf (all : Dict Definition) (entry : String × Definition) : List Request :=
  (calledIds all entry.2.body).map (callRelation entry.1)

theorem findAll_anyCall_empty : anyCall.findAll "" = [] := isEmpty_iff.1 (by decide +kernel)

def IsProgress (total calls functions : Nat) (line : String) : Prop :=
  (∃ k ≤ calls, line = callsWritten k) ∨ ∃ k ≤ functions, line = functionsSearched total k

theorem IsProgress.mono {total calls functions calls' functions' : Nat} {line : String}
    (h : IsProgress total calls functions line) (hcalls : calls ≤ calls')
    (hfunctions : functions ≤ functions') : IsProgress total calls' functions' line :=
  h.imp (fun ⟨k, hk, hline⟩ => ⟨k, Nat.le_trans hk hcalls, hline⟩)
    fun ⟨k, hk, hline⟩ => ⟨k, Nat.le_trans hk hfunctions, hline⟩

theorem Wrote.searchFunction {s₀ s : Session} {b : Batch} {made : List Request}
    {lines : List String} (h : Wrote s₀ b made lines s) (all : Dict Definition) (done : Nat)
    (entry : String × Definition) :
    ∃ done' b' s' more, (searchFunction all (done, b) entry).run.run s = (.ok (done', b'), s') ∧
      done' ≤ done + 1 ∧ Wrote s₀ b' (made ++ callsOf all entry) (lines ++ more) s' ∧
      ∀ line ∈ more, IsProgress all.length (made ++ callsOf all entry).length done' line := by
  obtain ⟨id, d⟩ := entry
  by_cases hempty : d.body.isEmpty = true
  · have hnone : callsOf all (id, d) = [] := by
      simp [callsOf, calledIds, calledNames, String.isEmpty_iff.1 hempty, findAll_anyCall_empty]
    refine ⟨done, b, s, [], ?_, Nat.le_succ done, by simpa [hnone] using h, by simp⟩
    simp only [Finder.searchFunction, hempty, if_true]
    rfl
  · obtain ⟨b', s', hrun, h'⟩ := h.foldlM_write callsWritten (callsOf all (id, d))
    have hcalls : (writeCallsFrom all id d.body b).run.run s = (.ok b', s') := by
      rwa [callsOf, foldlM_map] at hrun
    have hreports : ∀ line ∈ reports callsWritten made.length (callsOf all (id, d)).length,
        IsProgress all.length (made ++ callsOf all (id, d)).length (done + 1) line :=
      fun line hline =>
      .inl (length_append ▸ mem_reports hline)
    rw [Finder.searchFunction, if_neg hempty, run_bind_of_ok hcalls]
    by_cases hfull : (done + 1) % batchSize = 0
    · obtain ⟨s'', hsay, h''⟩ := h'.say (functionsSearched all.length (done + 1))
      rw [append_assoc] at h''
      refine ⟨done + 1, b', s'', _, ?_, Nat.le_refl _, h'', ?_⟩
      · rw [if_pos (by simpa using hfull), run_bind_of_ok hsay]
        rfl
      · intro line hline
        rcases mem_append.1 hline with hline | hline
        · exact hreports line hline
        · exact .inr ⟨done + 1, Nat.le_refl _, mem_singleton.1 hline⟩
    · refine ⟨done + 1, b', s', _, ?_, Nat.le_refl _, h', hreports⟩
      rw [if_neg (by simpa using hfull)]
      rfl

theorem Wrote.foldlM_searchFunction {s₀ s : Session} {b : Batch} {made : List Request}
    {lines : List String} (h : Wrote s₀ b made lines s) (all : Dict Definition) (done : Nat)
    (entries : List (String × Definition)) :
    ∃ done' b' s' more,
      (entries.foldlM (Finder.searchFunction all) (done, b)).run.run s = (.ok (done', b'), s') ∧
      done' ≤ done + entries.length ∧
      Wrote s₀ b' (made ++ entries.flatMap (callsOf all)) (lines ++ more) s' ∧
      ∀ line ∈ more, IsProgress all.length (made ++ entries.flatMap (callsOf all)).length
        (done + entries.length) line := by
  induction entries generalizing b s made lines done with
  | nil => exact ⟨done, b, s, [], rfl, Nat.le_refl _, by simpa using h, by simp⟩
  | cons entry entries ih =>
    obtain ⟨done₁, b₁, s₁, more₁, hrun₁, hdone₁, h₁, hmore₁⟩ := h.searchFunction all done entry
    obtain ⟨done', b', s', more, hrun, hdone, h', hmore⟩ := ih h₁ done₁
    rw [append_assoc, ← flatMap_cons] at h' hmore
    refine ⟨done', b', s', more₁ ++ more, ?_, ?_, by rwa [← append_assoc], ?_⟩
    · rw [foldlM_cons, run_bind_of_ok hrun₁, hrun]
    · rw [length_cons]
      omega
    · intro line hline
      rw [length_cons]
      rcases mem_append.1 hline with hline | hline
      · refine (hmore₁ line hline).mono ?_ (by omega)
        simp
      · exact (hmore line hline).mono (Nat.le_refl _) (by omega)

theorem run_writeCalls (s₀ : Session) :
    ∃ steps lines, Whole s₀.transactions.length steps (all.flatMap (callsOf all)) ∧
      (∀ line ∈ lines, IsProgress all.length (all.flatMap (callsOf all)).length all.length line) ∧
      (writeCalls all).run.run s₀ =
        (.ok (all.flatMap (callsOf all)).length, after s₀ steps lines) := by
  obtain ⟨b, s, hstart, h⟩ := wrote_start s₀
  obtain ⟨done, b', s', lines, hrun, -, h', hlines⟩ := h.foldlM_searchFunction all 0 all
  obtain ⟨steps, hcommit, hwhole⟩ := h'.commit
  rw [Nat.zero_add] at hlines
  refine ⟨steps, lines, hwhole, hlines, ?_⟩
  rw [writeCalls, run_bind_of_ok hstart, run_bind_of_ok hrun, run_bind_of_ok hcommit, h'.count_eq]
  rfl

/-! ### Calls as pairs of a match and a function -/

/-- The calls in the recorded texts: the function, the number of the match in its text, and a
function of the name that is matched. -/
def callPairs (all : Dict Definition) : List (String × Nat × String) :=
  all.flatMap fun e => (anyCall.findAll e.2.body).zipIdx.flatMap fun m =>
    (all.filter fun e' => !skippedNames.contains (m.1.group 1) && e'.2.name == m.1.group 1).map
      fun e' => (e.1, m.2, e'.1)

theorem flatMap_callsOf :
    all.flatMap (callsOf all) = (callPairs all).map fun p => callRelation p.1 p.2.2 := by
  have hcalled : ∀ ms : List Match,
      (((ms.map (·.group 1)).filter (!skippedNames.contains ·)).flatMap fun name =>
        (all.filter (·.2.name == name)).map (·.1)) =
      ms.flatMap fun m =>
        (all.filter fun e => !skippedNames.contains (m.group 1) && e.2.name == m.group 1).map
          (·.1) := by
    intro ms
    induction ms with
    | nil => rfl
    | cons m ms ih =>
      rw [map_cons, filter_cons, flatMap_cons, ← ih]
      cases skippedNames.contains (m.group 1) <;> simp
  rw [callPairs, map_flatMap]
  refine flatMap_congr fun e _ => ?_
  rw [callsOf, calledIds, calledNames, hcalled, map_flatMap, map_flatMap]
  conv_lhs => rw [← zipIdx_map_fst 0 (anyCall.findAll e.2.body), flatMap_map]
  refine flatMap_congr fun m _ => ?_
  simp

theorem mem_callPairs {all : Dict Definition} (hall : all.keys.Nodup) (id target : String)
    (k : Nat) :
    (id, k, target) ∈ callPairs all ↔
      ∃ d d' m, all.get? id = some d ∧ (anyCall.findAll d.body)[k]? = some m ∧
        m.group 1 ∉ skippedNames ∧ all.get? target = some d' ∧ d'.name = m.group 1 := by
  simp only [callPairs, mem_flatMap, mem_map, mem_filter, Prod.mk.injEq,
    Bool.and_eq_true, Bool.not_eq_true', ← Bool.not_eq_true, contains_iff_mem, beq_iff_eq]
  constructor
  · rintro ⟨⟨id, d⟩, hd, ⟨m, k⟩, hm, ⟨target, d'⟩, ⟨hd', hskip, hname⟩, rfl, rfl, rfl⟩
    exact ⟨d, d', m, (mem_iff_get? hall id d).1 hd, mem_zipIdx_iff_getElem?.1 hm, hskip,
      (mem_iff_get? hall target d').1 hd', hname⟩
  · rintro ⟨d, d', m, hd, hm, hskip, hd', hname⟩
    exact ⟨(id, d), mem_of_get? hd, (m, k), mem_zipIdx_iff_getElem?.2 hm, (target, d'),
      ⟨mem_of_get? hd', hskip, hname⟩, rfl, rfl, rfl⟩

theorem nodup_callPairs {all : Dict Definition} (hall : all.keys.Nodup) :
    (callPairs all).Nodup := by
  have hfunctions : all.Pairwise fun e e' => e.1 ≠ e'.1 := pairwise_map.1 hall
  refine nodup_flatMap.2 ⟨fun e _ => nodup_flatMap.2 ⟨fun m _ => ?_, ?_⟩, ?_⟩
  · have htargets : ((all.filter fun e' =>
        !skippedNames.contains (m.1.group 1) && e'.2.name == m.1.group 1).map (·.1)).Nodup :=
      hall.sublist (filter_sublist.map _)
    exact List.Nodup.of_map (·.2.2) (by simpa [map_map, Function.comp_def] using htargets)
  · have hmatches : (anyCall.findAll e.2.body).zipIdx.Pairwise fun m m' => m.2 ≠ m'.2 := by
      refine pairwise_map.1 ?_
      rw [zipIdx_map_snd]
      exact nodup_range'
    refine hmatches.imp fun hne p hp hp' => ?_
    obtain ⟨_, _, rfl⟩ := mem_map.1 hp
    obtain ⟨_, _, heq⟩ := mem_map.1 hp'
    exact hne (Prod.mk.inj (Prod.mk.inj heq).2).1.symm
  · refine hfunctions.imp fun hne p hp hp' => ?_
    obtain ⟨_, _, hp⟩ := mem_flatMap.1 hp
    obtain ⟨_, _, hp'⟩ := mem_flatMap.1 hp'
    obtain ⟨_, _, rfl⟩ := mem_map.1 hp
    obtain ⟨_, _, heq⟩ := mem_map.1 hp'
    exact hne (Prod.mk.inj heq).1.symm

/-! ### The whole code base -/

theorem run_openGraph (hlibrary : session.graphLibrary = true)
    (hopen : session.database.refusal = none) : openGraph.run.run session = (.ok (), session) := by
  rw [openGraph, run_get_bind, hlibrary]
  change connect.run.run session = _
  rw [connect, run_get_bind, hopen]
  rfl

theorem run_clearGraph {clear : Bool}
    (hclear : clear = true → ∀ message rest, session.database.outcomes ≠ .fail message :: rest) :
    ∃ s, (clearGraph clear).run.run session = (.ok (), s) ∧ s.tree = session.tree ∧
      s.requests = (if clear then [.query "MATCH (n) DETACH DELETE n" []] else []) ++
        session.requests ∧
      s.transactions = session.transactions ∧ s.written = session.written := by
  cases clear with
  | false => exact ⟨session, rfl, rfl, rfl, rfl, rfl⟩
  | true =>
    obtain ⟨outcome, later, hrun, hok⟩ := run_query? "MATCH (n) DETACH DELETE n" [] session
    obtain ⟨rows, rfl⟩ := hok (hclear rfl)
    exact ⟨_, run_bind_of_ok hrun, rfl, rfl, rfl, rfl⟩

/-- The queries for indexes are no part of a transaction; if the first one fails, it is the last. -/
theorem run_createIndexes (session : Session) :
    ∃ outcome session' queries, createIndexes.run.run session = (outcome, session') ∧
      queries <+: [.query "CREATE INDEX ON :Function(name)" [],
        .query "CREATE INDEX ON :Function(id)" []] ∧
      session'.requests = queries.reverse ++ session.requests ∧
      session'.transactions = session.transactions ∧ session'.written = session.written := by
  have hquery (text : String) (s : Session) : ∃ outcome s',
      (query? text []).run.run s = (outcome, s') ∧ s'.requests = .query text [] :: s.requests ∧
        s'.transactions = s.transactions ∧ s'.written = s.written := by
    obtain ⟨outcome, later, hrun, -⟩ := run_query? text [] s
    exact ⟨outcome, _, hrun, rfl, rfl, rfl⟩
  obtain ⟨outcome, s, hrun, hrequests, htransactions, hwritten⟩ :=
    hquery "CREATE INDEX ON :Function(name)" session
  cases outcome with
  | error e =>
    exact ⟨.error e, s, _, run_bind_of_error hrun, prefix_append [_] [_], hrequests,
      htransactions, hwritten⟩
  | ok rows =>
    obtain ⟨outcome, s', hrun', hrequests', htransactions', hwritten'⟩ :=
      hquery "CREATE INDEX ON :Function(id)" s
    rw [createIndexes, run_bind_of_ok hrun]
    rw [hrequests] at hrequests'
    rw [htransactions] at htransactions'
    rw [hwritten] at hwritten'
    cases outcome with
    | error e =>
      exact ⟨.error e, s', _, run_bind_of_error hrun', prefix_rfl, hrequests',
        htransactions', hwritten'⟩
    | ok rows =>
      exact ⟨.ok (), s', _, run_bind_of_ok hrun', prefix_rfl, hrequests', htransactions', hwritten'⟩

/-- What is written for recorded functions: each is a node once, and each pair of a call in a
recorded text, of a name that is not skipped, and a recorded function of that name is a relation
once. A call is given by the number of its match in the text. -/
structure WrittenOnce (all : Dict Definition) (pairs : List (String × Nat × String))
    (made : List Request) : Prop where
  functions : all.keys.Nodup
  calls : pairs.Nodup
  call_iff : ∀ id k target, (id, k, target) ∈ pairs ↔
    ∃ d d' m, all.get? id = some d ∧ (anyCall.findAll d.body)[k]? = some m ∧
      Match.group m 1 ∉ skippedNames ∧ all.get? target = some d' ∧ d'.name = Match.group m 1
  made_eq : made = (all.map fun e => nodeOf e.1 e.2) ++ pairs.map fun p => callRelation p.1 p.2.2

/-- What is said about that many nodes and calls: the totals, and between them numbers that are
reached on the way. -/
structure Reported (nodes calls : Nat) (nodesSaid callsSaid lines : List String) : Prop where
  nodes_le : ∀ line ∈ nodesSaid, ∃ k ≤ nodes, line = nodesWritten nodes k
  calls_le : ∀ line ∈ callsSaid, IsProgress nodes calls nodes line
  lines_eq : lines = ["第一步: 提取所有函数定义...", nodesPlanned nodes] ++ nodesSaid ++
    ["第三步: 分析函数调用关系..."] ++ callsSaid ++ [callsDone calls]

theorem run_fillGraph (dir : String) (endings : List String) (s₀ : Session) :
    ∃ steps pairs nodesSaid callsSaid lines made,
      (fillGraph dir endings).run.run s₀ = (.ok (), after s₀ steps lines) ∧
      Whole s₀.transactions.length steps made ∧
      WrittenOnce (identifiedAll (sourceTexts s₀.tree dir endings)) pairs made ∧
      Reported (identifiedAll (sourceTexts s₀.tree dir endings)).length pairs.length
        nodesSaid callsSaid lines := by
  generalize hall : identifiedAll (sourceTexts s₀.tree dir endings) = all
  have hkeys : all.keys.Nodup := hall ▸ nodup_keys_ofPairs _
  obtain ⟨steps, hwhole, hnodes⟩ := run_writeNodes all
    (after s₀ [] ["第一步: 提取所有函数定义...", nodesPlanned all.length])
  generalize hnodesSaid : reports (nodesWritten all.length) 0 all.length = nodesSaid at hnodes
  obtain ⟨steps', callsSaid, hwhole', hcallsSaid, hcalls⟩ := run_writeCalls all
    (after s₀ steps (["第一步: 提取所有函数定义...", nodesPlanned all.length] ++ nodesSaid ++
      ["第三步: 分析函数调用关系..."]))
  rw [length_transactions_after] at hwhole hwhole'
  have hboth : Whole s₀.transactions.length (steps ++ steps') _ := hwhole.append hwhole'
  rw [flatMap_callsOf] at hboth hcalls hcallsSaid
  rw [length_map] at hcalls hcallsSaid
  refine ⟨steps ++ steps', callPairs all, nodesSaid, callsSaid, _, _, ?_, hboth,
    ⟨hkeys, nodup_callPairs hkeys, fun id k target => mem_callPairs hkeys id target k, rfl⟩,
    ⟨?_, hcallsSaid, rfl⟩⟩
  · rw [fillGraph, run_bind_of_ok (run_say _ _), run_tree_bind]
    dsimp only
    rw [show (after s₀ [] ["第一步: 提取所有函数定义..."]).tree = s₀.tree from rfl, hall,
      run_bind_of_ok (run_say _ _), after_after, append_nil, singleton_append,
      run_bind_of_ok hnodes, run_bind_of_ok (run_say _ _), after_after, after_after,
      nil_append, append_nil, ← append_assoc, run_bind_of_ok hcalls, run_say,
      after_after, after_after, append_nil, ← append_assoc]
  · intro line hline
    rw [← hnodesSaid] at hline
    simpa using mem_reports hline

/-- A file with two functions, of which the second calls the first. -/
def twoFunctions : Session where
  tree := (FileTree.empty "/w").addFile "a.c" (Text.encodeUtf8 "a g(){}\na f(){g();}")
  graphLibrary := true

end CodeAtlas.Finder

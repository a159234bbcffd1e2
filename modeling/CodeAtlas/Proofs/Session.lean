import CodeAtlas.Proofs.Fault
import CodeAtlas.Session
import Mathlib.Data.List.Forall2

/-!
# Steps that only read their sources

Many steps look at the file tree, at the machine and at the trees of the front
end, and otherwise only write to the log. `Answers session x outcome` says that
`x` is such a step and what comes of it: from every session with the sources of
`session` it has that outcome, and it keeps the sources. So what was asked or
written before has no influence.
-/

namespace CodeAtlas

/-- The sessions show the same files, the same machine and the same trees. -/
structure Session.SameSources (s s' : Session) : Prop where
  tree : s.tree = s'.tree
  machine : s.machine = s'.machine
  trees : s.trees = s'.trees

/-- The path is in the file tree or known to the machine. -/
def Session.has (session : Session) (path : String) : Bool :=
  session.tree.exists path || session.machine.known.contains path

theorem Session.SameSources.refl (s : Session) : s.SameSources s := ⟨rfl, rfl, rfl⟩

namespace Run

variable {α β : Type} {session session' : Session} {x : Run α}

theorem run_bind_of_ok {next : α → Run β} {a : α} (h : x.run.run session = (.ok a, session')) :
    (x >>= next).run.run session = (next a).run.run session' := by
  rw [ExceptT.run_bind, StateT.run_bind, h]
  rfl

theorem run_bind_of_error {next : α → Run β} {e : Fault}
    (h : x.run.run session = (.error e, session')) :
    (x >>= next).run.run session = (.error e, session') := by
  rw [ExceptT.run_bind, StateT.run_bind, h]
  rfl

theorem run_get_bind (next : Session → Run β) (session : Session) :
    (get >>= next).run.run session = (next session).run.run session := rfl

theorem run_tree_bind (next : FileTree → Run β) (session : Session) :
    (tree >>= next).run.run session = (next session.tree).run.run session := rfl

theorem run_modify_bind (change : Session → Session) (next : PUnit → Run β) (session : Session) :
    (modify change >>= next).run.run session = (next ⟨⟩).run.run (change session) := rfl

theorem run_attempt {outcome : Except Fault α} (h : x.run.run session = (outcome, session'))
    (houtcome : GoesOn outcome) : (attempt x).run.run session = (.ok outcome, session') := by
  unfold attempt
  rw [ExceptT.run_mk, StateT.run_bind, h]
  cases outcome with
  | ok a => rfl
  | error e =>
    cases e with
    | exit n => exact absurd rfl (houtcome n)
    | _ => rfl

theorem run_writeFile (path text : String) (session : Session) :
    (writeFile path text).run.run session =
      match session.tree.writeText path text with
      | .ok t => (.ok (), { session with tree := t })
      | .error e => (.error e, session) := by
  unfold writeFile
  rw [run_tree_bind]
  generalize session.tree.writeText path text = outcome
  cases outcome <;> rfl

theorem run_query {rows : List Row} {later : List QueryOutcome}
    (h : session.database.outcomes = .rows rows :: later) (text : String) (params : Dict Json) :
    (query text params).run.run session =
      (.ok rows, { session with
        requests := .query text params :: session.requests
        database := { session.database with outcomes := later } }) := by
  rw [query, run_bind_of_ok (a := some rows)]
  · rfl
  · rw [query?, request, run_modify_bind, run_get_bind]
    dsimp only
    rw [h, run_modify_bind]
    rfl

/-- A query is taken down and uses up one outcome. It fails only if that is a failure. -/
theorem run_query? (text : String) (params : Dict Json) (session : Session) :
    ∃ outcome later,
      (query? text params).run.run session =
        (outcome, { session with
          requests := .query text params :: session.requests
          database := { session.database with outcomes := later } }) ∧
      ((∀ message rest, session.database.outcomes ≠ .fail message :: rest) →
        ∃ rows, outcome = .ok rows) := by
  rw [query?, request, run_modify_bind, run_get_bind]
  dsimp only
  cases h : session.database.outcomes with
  | nil => exact ⟨_, session.database.outcomes, rfl, fun _ => ⟨_, rfl⟩⟩
  | cons outcome later =>
    rw [run_modify_bind]
    cases outcome with
    | rows rows => exact ⟨_, later, rfl, fun _ => ⟨_, rfl⟩⟩
    | nothing => exact ⟨_, later, rfl, fun _ => ⟨_, rfl⟩⟩
    | fail message =>
      exact ⟨_, later, rfl, fun hok => (hok message later rfl).elim⟩

theorem run_lift_of_ok {x : Except Fault α} {a : α} (h : x = .ok a) (session : Session) :
    (lift x).run.run session = (.ok a, session) := by
  rw [h]
  rfl

theorem run_mapM {step : α → Run β} {l : List α} {l' : List β}
    (h : List.Forall₂ (fun a b => ∀ session, (step a).run.run session = (.ok b, session)) l l')
    (session : Session) : (l.mapM step).run.run session = (.ok l', session) := by
  induction h with
  | nil => rfl
  | cons hstep _ ih =>
    rw [List.mapM_cons, run_bind_of_ok (hstep session), run_bind_of_ok ih]
    rfl

/-- The step reads only the sources of the session and keeps them. -/
def Answers {α : Type} (session : Session) (x : Run α) (outcome : Except Fault α) : Prop :=
  ∀ s : Session, s.SameSources session →
    ∃ s', x.run.run s = (outcome, s') ∧ s'.SameSources session

section

theorem answers_pure (a : α) : Answers session (pure a) (.ok a) :=
  fun s hs => ⟨s, rfl, hs⟩

theorem answers_lift (x : Except Fault α) : Answers session (lift x) x :=
  fun s hs => ⟨s, rfl, hs⟩

theorem answers_throw (e : Fault) : Answers session (throw e : Run α) (.error e) :=
  fun s hs => ⟨s, rfl, hs⟩

theorem Answers.bind {next : α → Run β} {a : α} {outcome : Except Fault β}
    (hx : Answers session x (.ok a)) (hnext : Answers session (next a) outcome) :
    Answers session (x >>= next) outcome := by
  intro s hs
  obtain ⟨s₁, hrun, hs₁⟩ := hx s hs
  rw [run_bind_of_ok hrun]
  exact hnext s₁ hs₁

theorem Answers.bind_error {next : α → Run β} {e : Fault} (hx : Answers session x (.error e)) :
    Answers session (x >>= next) (.error e) := by
  intro s hs
  obtain ⟨s₁, hrun, hs₁⟩ := hx s hs
  exact ⟨s₁, run_bind_of_error hrun, hs₁⟩

theorem answers_get {next : Session → Run β} {outcome : Except Fault β}
    (hnext : ∀ s : Session, s.SameSources session → Answers session (next s) outcome) :
    Answers session (get >>= next) outcome := by
  intro s hs
  exact hnext s hs s hs

theorem answers_pathExists (path : String) : Answers session (pathExists path)
    (.ok (session.tree.exists path || session.machine.known.contains path)) :=
  answers_get fun s hs => by
    rw [← hs.tree, ← hs.machine]
    exact answers_pure _

theorem answers_say (line : String) : Answers session (say line) (.ok ()) :=
  fun _ hs => ⟨_, rfl, hs.tree, hs.machine, hs.trees⟩

theorem answers_call (name : String) (args : List Json) :
    Answers session (call name args) (.ok ()) :=
  fun _ hs => ⟨_, rfl, hs.tree, hs.machine, hs.trees⟩

theorem Answers.attempt {outcome : Except Fault α} (hx : Answers session x outcome)
    (houtcome : GoesOn outcome) : Answers session (attempt x) (.ok outcome) := by
  intro s hs
  obtain ⟨s', hrun, hs'⟩ := hx s hs
  exact ⟨s', run_attempt hrun houtcome, hs'⟩

theorem Answers.orElse_ok {a : α} (hx : Answers session x (.ok a)) (mend : Fault → Run α) :
    Answers session (orElse x mend) (.ok a) :=
  (hx.attempt (goesOn_ok a)).bind (answers_pure a)

theorem Answers.orElse_error {e : Fault} {mend : Fault → Run α} {outcome : Except Fault α}
    (hx : Answers session x (.error e)) (he : GoesOn (.error e : Except Fault α))
    (hmend : Answers session (mend e) outcome) : Answers session (orElse x mend) outcome :=
  (hx.attempt he).bind hmend

theorem answers_mapM {f : α → Run β} {g : α → β} (l : List α)
    (hf : ∀ a ∈ l, Answers session (f a) (.ok (g a))) :
    Answers session (l.mapM f) (.ok (l.map g)) := by
  induction l with
  | nil => exact answers_pure []
  | cons a rest ih =>
    rw [List.mapM_cons]
    exact (hf a List.mem_cons_self).bind
      ((ih fun a' ha' => hf a' (List.mem_cons_of_mem a ha')).bind (answers_pure _))

end

end Run

end CodeAtlas

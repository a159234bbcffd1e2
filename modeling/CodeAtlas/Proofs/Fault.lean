import CodeAtlas.Fault

/-!
# Computations that can fail

What is known of the parts of a computation that succeeds, and when it succeeds.
-/

namespace CodeAtlas

open List

variable {α β : Type} {x : Except Fault α} {next : α → Except Fault β} {b : β}
  {step : β → α → Except Fault β}

theorem exists_of_bind_eq_ok (h : x >>= next = .ok b) : ∃ a, x = .ok a ∧ next a = .ok b := by
  cases x with
  | error e => cases h
  | ok a => exact ⟨a, rfl, h⟩

theorem exists_of_toOption_map {view : α → β} {v : β} (h : x.toOption.map view = some v) :
    ∃ a, x = .ok a ∧ view a = v := by
  cases x with
  | error e => cases h
  | ok a => exact ⟨a, rfl, Option.some.inj h⟩

/-- What every turn of a loop keeps holds at its end, if it comes to an end. -/
theorem foldlM_invariant (P : β → Prop) (l : List α)
    (hstep : ∀ b a b', a ∈ l → P b → step b a = .ok b' → P b') {b' : β} (hb : P b)
    (h : l.foldlM step b = .ok b') : P b' := by
  induction l generalizing b with
  | nil =>
    cases h
    exact hb
  | cons a rest ih =>
    rw [foldlM_cons] at h
    obtain ⟨b₁, hb₁, hrest⟩ := exists_of_bind_eq_ok h
    exact ih (fun b a b' ha => hstep b a b' (mem_cons_of_mem _ ha))
      (hstep b a b₁ (mem_cons_self ..) hb hb₁) hrest

/-- If a computation succeeds, its result has the property. -/
def Ensures {α : Type} (P : α → Prop) (x : Except Fault α) : Prop := ∀ a, x = .ok a → P a

theorem ensures_ok {P : α → Prop} {a : α} (h : P a) : Ensures P (.ok a) := by
  intro a' ha'
  cases ha'
  exact h

theorem ensures_error (P : α → Prop) (e : Fault) : Ensures P (.error e) := by
  intro a ha
  cases ha

theorem ensures_bind {P : β → Prop} (h : ∀ a, x = .ok a → Ensures P (next a)) :
    Ensures P (x >>= next) := by
  cases x with
  | error e => exact ensures_error P e
  | ok a => exact h a rfl

def Succeeds {α : Type} (x : Except Fault α) : Prop := ∃ a, x = .ok a

@[simp] theorem succeeds_ok (a : α) : Succeeds (.ok a : Except Fault α) := ⟨a, rfl⟩

@[simp] theorem not_succeeds_error (e : Fault) : ¬ Succeeds (.error e : Except Fault α) := by
  rintro ⟨a, ha⟩
  cases ha

theorem filterM_eq_ok {p : α → Except Fault Bool} {q : α → Bool} {l : List α}
    (h : ∀ x ∈ l, p x = .ok (q x)) : l.filterM p = .ok (l.filter q) := by
  have haux : ∀ acc, l.filterAuxM p acc = .ok ((l.filter q).reverse ++ acc) := by
    induction l with
    | nil => exact fun acc => rfl
    | cons x l ih =>
      intro acc
      obtain ⟨hx, hl⟩ := forall_mem_cons.1 h
      rw [filterAuxM, hx]
      refine (ih hl _).trans ?_
      cases hq : q x <;> simp [hq]
  rw [filterM, haux []]
  simp [bind, Except.bind, pure, Except.pure]

theorem mapM_eq_ok {f : α → Except Fault β} {g : α → β} {l : List α}
    (h : ∀ x ∈ l, f x = .ok (g x)) : l.mapM f = .ok (l.map g) := by
  induction l with
  | nil => rfl
  | cons x l ih =>
    obtain ⟨hx, hl⟩ := forall_mem_cons.1 h
    rw [mapM_cons, hx, ih hl]
    rfl

def GoesOn {α : Type} (x : Except Fault α) : Prop := ∀ n, x ≠ .error (.exit n)

theorem goesOn_ok (a : α) : GoesOn (.ok a : Except Fault α) := by
  intro n hn
  cases hn

theorem goesOn_error {e : Fault} (he : ∀ n, e ≠ .exit n) : GoesOn (.error e : Except Fault α) := by
  intro n hn
  cases hn
  exact he n rfl

theorem goesOn_bind (hx : GoesOn x) (hnext : ∀ a, GoesOn (next a)) : GoesOn (x >>= next) := by
  cases x with
  | error e =>
    intro n hn
    cases hn
    exact hx n rfl
  | ok a => exact hnext a

/-- A computation that succeeds if and only if `p` holds, and goes on if it does not. -/
structure Mends {α : Type} (x : Except Fault α) (p : Prop) : Prop where
  goesOn : GoesOn x
  succeeds_iff : Succeeds x ↔ p

namespace Mends

variable {p q : Prop}

theorem of_succeeds (h : Succeeds x) (hp : p) : Mends x p := by
  obtain ⟨a, rfl⟩ := h
  exact ⟨goesOn_ok a, iff_of_true (succeeds_ok a) hp⟩

theorem ok {a : α} (hp : p) : Mends (.ok a : Except Fault α) p := of_succeeds (succeeds_ok a) hp

theorem error {e : Fault} (he : ∀ n, e ≠ .exit n) (hp : ¬ p) :
    Mends (.error e : Except Fault α) p :=
  ⟨goesOn_error he, iff_of_false (not_succeeds_error e) hp⟩

theorem congr (h : Mends x p) (hpq : p ↔ q) : Mends x q := ⟨h.goesOn, h.succeeds_iff.trans hpq⟩

/-- Two steps succeed if both do, where the result of the first does not matter for the second. -/
theorem bind (h : Mends x p) (hnext : ∀ a, x = .ok a → Mends (next a) q) :
    Mends (x >>= next) (p ∧ q) := by
  cases x with
  | error e =>
    exact error (fun n hn => h.goesOn n (hn ▸ rfl)) fun hp =>
      not_succeeds_error e (h.succeeds_iff.2 hp.1)
  | ok a => exact (hnext a rfl).congr (iff_and_self.2 fun _ => h.succeeds_iff.1 (succeeds_ok a))

theorem bind_left (h : Mends x p) (hnext : ∀ a, Succeeds (next a)) : Mends (x >>= next) p :=
  (h.bind fun a _ => of_succeeds (hnext a) trivial).congr (and_iff_left trivial)

/-- A loop succeeds if all its turns do, where a turn depends on those before only through what
they keep. -/
theorem foldlM (P : β → Prop) {good : α → Prop} {l : List α}
    (hkeep : ∀ b a b', a ∈ l → P b → step b a = .ok b' → P b')
    (hstep : ∀ b, P b → ∀ a ∈ l, Mends (step b a) (good a)) (hb : P b) :
    Mends (l.foldlM step b) (∀ a ∈ l, good a) := by
  induction l generalizing b with
  | nil => exact ok fun a ha => absurd ha not_mem_nil
  | cons a rest ih =>
    rw [foldlM_cons, forall_mem_cons]
    exact (hstep b hb a mem_cons_self).bind fun b' hb' =>
      ih (fun b a b' ha => hkeep b a b' (mem_cons_of_mem _ ha))
        (fun b hb a ha => hstep b hb a (mem_cons_of_mem _ ha))
        (hkeep b a b' mem_cons_self hb hb')

end Mends

end CodeAtlas

import Eleven.Failure.Attempt

/-! Success and failure of computations made of parts. -/
namespace Eleven

section Except

variable {ε α β : Type}

@[simp] theorem ok_bind (a : α) (f : α → Except ε β) : (Except.ok a >>= f) = f a := rfl

@[simp] theorem error_bind (e : ε) (f : α → Except ε β) :
    ((Except.error e : Except ε α) >>= f) = .error e := rfl

/-- A sequence succeeds exactly if both of its parts do. -/
theorem bind_eq_ok {x : Except ε α} {f : α → Except ε β} {b : β} :
    (x >>= f) = .ok b ↔ ∃ a, x = .ok a ∧ f a = .ok b := by
  cases x with
  | error e => simp
  | ok a => simp

theorem toOption_eq_some {x : Except ε α} {a : α} : x.toOption = some a ↔ x = .ok a := by
  cases x with
  | error e => simp [Except.toOption]
  | ok b => simp [Except.toOption]

theorem mapError_eq_ok {ε' : Type} {f : ε → ε'} {x : Except ε α} {a : α} :
    x.mapError f = .ok a ↔ x = .ok a := by
  cases x with
  | error e =>
    change Except.error (f e) = Except.ok a ↔ _
    simp
  | ok b =>
    change Except.ok b = Except.ok a ↔ _
    simp

end Except

namespace Attempt

variable {σ α β : Type}

@[simp] theorem run_liftM (e : Except Failure α) (s : σ) :
    (liftM e : Attempt σ α).run s = (e, s) := rfl

@[simp] theorem outcome_liftM (e : Except Failure α) (s : σ) :
    (liftM e : Attempt σ α).outcome s = e := rfl

@[simp] theorem outcome_pure (a : α) (s : σ) : (pure a : Attempt σ α).outcome s = .ok a := rfl

@[simp] theorem outcome_throw (e : Failure) (s : σ) :
    (throw e : Attempt σ α).outcome s = .error e := rfl

theorem outcome_eq_of_run {act : Attempt σ α} {s s' : σ} {r : Except Failure α}
    (h : act.run s = (r, s')) : act.outcome s = r := by
  rw [outcome, h]

theorem run_bind_ok {act : Attempt σ α} {s s' : σ} {a : α} (h : act.run s = (.ok a, s'))
    (f : α → Attempt σ β) : (act >>= f).run s = (f a).run s' := by
  rw [run_bind, h]

theorem outcome_bind_ok {act : Attempt σ α} {s s' : σ} {a : α} (h : act.run s = (.ok a, s'))
    (f : α → Attempt σ β) : (act >>= f).outcome s = (f a).outcome s' := by
  rw [outcome, run_bind_ok h, outcome]

theorem run_bind_error {act : Attempt σ α} {s s' : σ} {e : Failure}
    (h : act.run s = (.error e, s')) (f : α → Attempt σ β) :
    (act >>= f).run s = (.error e, s') := by
  rw [run_bind, h]

/-- A sequence that succeeds passes through a state in between. -/
theorem run_bind_eq_ok {act : Attempt σ α} {f : α → Attempt σ β} {s s' : σ} {b : β} :
    (act >>= f).run s = (.ok b, s') ↔
      ∃ a m, act.run s = (.ok a, m) ∧ (f a).run m = (.ok b, s') := by
  rcases hact : act.run s with ⟨r | a, m⟩
  · rw [run_bind_error hact]
    simp
  · rw [run_bind_ok hact]
    constructor
    · intro h
      exact ⟨a, m, rfl, h⟩
    · rintro ⟨_, _, h, hf⟩
      cases h
      exact hf

/-- A sequence that fails does so in its first part, or in the second behind it. -/
theorem run_bind_eq_error {act : Attempt σ α} {f : α → Attempt σ β} {s s' : σ} {e : Failure} :
    (act >>= f).run s = (.error e, s') ↔
      act.run s = (.error e, s') ∨
        ∃ a m, act.run s = (.ok a, m) ∧ (f a).run m = (.error e, s') := by
  rcases hact : act.run s with ⟨r | a, m⟩
  · rw [run_bind_error hact]
    simp
  · rw [run_bind_ok hact]
    constructor
    · intro h
      exact .inr ⟨a, m, rfl, h⟩
    · rintro (h | ⟨_, _, h, hf⟩)
      · cases h
      · cases h
        exact hf

theorem run_update_eq_ok {f : σ → Except Failure σ} {s s' : σ} :
    (update f).run s = (.ok (), s') ↔ f s = .ok s' := by
  rw [update, run_of]
  cases f s <;> simp

theorem run_update_eq_error {f : σ → Except Failure σ} {s s' : σ} {e : Failure} :
    (update f).run s = (.error e, s') ↔ f s = .error e ∧ s' = s := by
  rw [update, run_of]
  cases f s <;> simp [eq_comm]

theorem run_mapFailure (f : Failure → Failure) (act : Attempt σ α) (s : σ) :
    (act.mapFailure f).run s = ((act.run s).1.mapError f, (act.run s).2) := rfl

/-- A computation that leaves every state as it is. -/
def Inert (act : Attempt σ α) : Prop := ∀ s, act.run s = (act.outcome s, s)

theorem Inert.outcome_bind_ok {act : Attempt σ α} (h : act.Inert) {s : σ} {a : α}
    (ha : act.outcome s = .ok a) (f : α → Attempt σ β) :
    (act >>= f).outcome s = (f a).outcome s := by
  have hrun := h s
  rw [ha] at hrun
  rw [outcome, run_bind_ok hrun, outcome]

theorem Inert.outcome_bind_error {act : Attempt σ α} (h : act.Inert) {s : σ} {e : Failure}
    (he : act.outcome s = .error e) (f : α → Attempt σ β) :
    (act >>= f).outcome s = .error e := by
  have hrun := h s
  rw [he] at hrun
  rw [outcome, run_bind_error hrun]

theorem Inert.bind {act : Attempt σ α} {f : α → Attempt σ β} (h : act.Inert)
    (hf : ∀ a, (f a).Inert) : (act >>= f).Inert := by
  intro s
  have hrun := h s
  cases ha : act.outcome s with
  | error e =>
    rw [ha] at hrun
    rw [h.outcome_bind_error ha, run_bind_error hrun]
  | ok a =>
    rw [ha] at hrun
    rw [h.outcome_bind_ok ha, run_bind_ok hrun]
    exact hf a s

theorem Inert.outcome_bind {act : Attempt σ α} (h : act.Inert) (f : α → Attempt σ β) (s : σ) :
    (act >>= f).outcome s = (act.outcome s >>= fun a => (f a).outcome s) := by
  cases ha : act.outcome s with
  | error e => rw [h.outcome_bind_error ha, error_bind]
  | ok a => rw [h.outcome_bind_ok ha, ok_bind]

theorem Inert.lift (e : Except Failure α) : (liftM e : Attempt σ α).Inert := fun _ => rfl

end Attempt

end Eleven

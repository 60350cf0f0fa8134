import Eleven.Proofs.Failure.Outcome

/-! What a computation may come to: results that satisfy one property, failures that satisfy
another. -/
namespace Eleven

section Ensures

variable {ε ε' α β : Type} {P : ε → Prop} {Q : α → Prop} {R : β → Prop}

/-- A success satisfies `Q` and a failure satisfies `P`. -/
def Ensures (Q : α → Prop) (P : ε → Prop) : Except ε α → Prop
  | .ok a => Q a
  | .error e => P e

theorem ensures_true (x : Except ε α) : Ensures (fun _ => True) (fun _ => True) x := by
  cases x <;> trivial

theorem Ensures.of_eq_ok {x : Except ε α} (h : Ensures Q P x) {a : α} (ha : x = .ok a) : Q a := by
  rw [ha] at h
  exact h

theorem Ensures.of_eq_error {x : Except ε α} (h : Ensures Q P x) {e : ε} (he : x = .error e) :
    P e := by
  rw [he] at h
  exact h

theorem Ensures.bind {x : Except ε α} {f : α → Except ε β} (h : Ensures Q P x)
    (hf : ∀ a, Q a → Ensures R P (f a)) : Ensures R P (x >>= f) := by
  cases x with
  | ok a => exact hf a h
  | error e => exact h

theorem Ensures.mapError {P' : ε' → Prop} {x : Except ε α} (h : Ensures Q P x) {f : ε → ε'}
    (hf : ∀ e, P e → P' (f e)) : Ensures Q P' (x.mapError f) := by
  cases x with
  | ok a => exact h
  | error e => exact hf e h

theorem Ensures.imp {Q' : α → Prop} {P' : ε → Prop} {x : Except ε α} (h : Ensures Q P x)
    (hQ : ∀ a, Q a → Q' a) (hP : ∀ e, P e → P' e) : Ensures Q' P' x := by
  cases x with
  | ok a => exact hQ a h
  | error e => exact hP e h

end Ensures

section Raises

variable {σ τ α β : Type} {I : σ → Prop} {P : Failure → Prop}

/-- From states that satisfy `I` a computation leaves such a state, and fails only with failures that
satisfy `P`. -/
def Raises (I : σ → Prop) (P : Failure → Prop) (x : Attempt σ α) : Prop :=
  ∀ s, I s → I (x.run s).2 ∧ Ensures (fun _ => True) P (x.run s).1

theorem raises_lift {e : Except Failure α} (h : Ensures (fun _ => True) P e) :
    Raises I P (liftM e : Attempt σ α) := fun _ hs => ⟨hs, h⟩

theorem raises_pure (a : α) : Raises I P (pure a : Attempt σ α) := raises_lift (e := .ok a) trivial

theorem raises_throw {e : Failure} (h : P e) : Raises I P (throw e : Attempt σ α) :=
  raises_lift (e := .error e) h

theorem Raises.bind {x : Attempt σ α} {f : α → Attempt σ β} (hx : Raises I P x)
    (hf : ∀ a, Raises I P (f a)) : Raises I P (x >>= f) := by
  intro s hs
  obtain ⟨hu, hr⟩ := hx s hs
  rcases hrun : x.run s with ⟨e | a, u⟩
  · rw [Attempt.run_bind_error hrun]
    rw [hrun] at hu hr
    exact ⟨hu, hr⟩
  · rw [Attempt.run_bind_ok hrun]
    rw [hrun] at hu
    exact hf a u hu

theorem Raises.imp {P' : Failure → Prop} {x : Attempt σ α} (h : Raises I P x)
    (hP : ∀ e, P e → P' e) : Raises I P' x := by
  intro s hs
  obtain ⟨hu, hr⟩ := h s hs
  exact ⟨hu, hr.imp (fun _ ha => ha) hP⟩

theorem Raises.mapFailure {P' : Failure → Prop} {x : Attempt σ α} (h : Raises I P x)
    {f : Failure → Failure} (hf : ∀ e, P e → P' (f e)) : Raises I P' (x.mapFailure f) := by
  intro s hs
  obtain ⟨hu, hr⟩ := h s hs
  exact ⟨hu, hr.mapError hf⟩

theorem raises_update {f : σ → Except Failure σ} (h : ∀ s, I s → Ensures I P (f s)) :
    Raises I P (Attempt.update f) := by
  intro s hs
  have hf := h s hs
  rw [Attempt.update, Attempt.run_of]
  cases hfs : f s with
  | ok u =>
    rw [hfs] at hf
    exact ⟨hf, trivial⟩
  | error e =>
    rw [hfs] at hf
    exact ⟨hs, hf⟩

theorem Raises.onPart {J : τ → Prop} {part : σ → τ} {put : τ → σ → σ} {x : Attempt τ α}
    (h : Raises J P x) (hpart : ∀ s, I s → J (part s))
    (hput : ∀ s u, I s → J u → I (put u s)) : Raises I P (x.onPart part put) := by
  intro s hs
  obtain ⟨hu, hr⟩ := h (part s) (hpart s hs)
  exact ⟨hput s _ hs hu, hr⟩

end Raises

section Returning

variable {σ α β : Type} {Q : α → Prop} {R : β → Prop}

/-- Whatever a computation returns satisfies `Q`. -/
structure Returns (Q : α → Prop) (x : Attempt σ α) : Prop where
  of_ok : ∀ s a, x.outcome s = .ok a → Q a

theorem returns_true (x : Attempt σ α) : Returns (fun _ => True) x := ⟨fun _ _ _ => trivial⟩

theorem returns_lift {e : Except Failure α} (h : ∀ a, e = .ok a → Q a) :
    Returns Q (liftM e : Attempt σ α) := ⟨fun _ a ha => h a ha⟩

theorem returns_pure {a : α} (ha : Q a) : Returns Q (pure a : Attempt σ α) := by
  constructor
  intro s b hb
  cases hb
  exact ha

theorem Returns.imp {Q' : α → Prop} {x : Attempt σ α} (h : Returns Q x) (hQ : ∀ a, Q a → Q' a) :
    Returns Q' x := ⟨fun s a ha => hQ a (h.of_ok s a ha)⟩

theorem Returns.bind {x : Attempt σ α} {f : α → Attempt σ β} (hx : Returns Q x)
    (hf : ∀ a, Q a → Returns R (f a)) : Returns R (x >>= f) := by
  constructor
  intro s b hb
  rcases hrun : x.run s with ⟨e | a, u⟩
  · rw [Attempt.outcome, Attempt.run_bind_error hrun] at hb
    cases hb
  · rw [Attempt.outcome, Attempt.run_bind_ok hrun] at hb
    have ha : Q a := hx.of_ok s a (Attempt.outcome_eq_of_run hrun)
    exact (hf a ha).of_ok u b hb

theorem Returns.mapFailure {x : Attempt σ α} (h : Returns Q x) (f : Failure → Failure) :
    Returns Q (x.mapFailure f) := ⟨fun s a ha => h.of_ok s a (mapError_eq_ok.mp ha)⟩

/-- What follows a computation matters only for what it can return. -/
theorem Returns.bind_congr {x : Attempt σ α} {f g : α → Attempt σ β} (hx : Returns Q x)
    (h : ∀ a, Q a → f a = g a) : x >>= f = x >>= g := by
  funext s
  show (x >>= f).run s = (x >>= g).run s
  rcases hrun : x.run s with ⟨e | a, u⟩
  · rw [Attempt.run_bind_error hrun, Attempt.run_bind_error hrun]
  · have ha : Q a := hx.of_ok s a (Attempt.outcome_eq_of_run hrun)
    rw [Attempt.run_bind_ok hrun, Attempt.run_bind_ok hrun, h a ha]

end Returning

end Eleven

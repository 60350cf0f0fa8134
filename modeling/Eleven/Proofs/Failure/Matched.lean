import Eleven.Proofs.Failure.Outcome

/-! Pairs of computations that both fail or both succeed. -/
namespace Eleven

/-- Both fail, or both succeed with related results. What the failures say does not matter. -/
inductive Matched {ε ε' α β : Type} (P : α → β → Prop) : Except ε α → Except ε' β → Prop
  | ok {a : α} {b : β} (h : P a b) : Matched P (.ok a) (.ok b)
  | error (e : ε) (e' : ε') : Matched P (.error e) (.error e')

namespace Matched

variable {ε ε' α β γ δ : Type} {P : α → β → Prop} {Q : γ → δ → Prop} {x : Except ε α}
  {y : Except ε' β}

theorem rfl {x : Except ε α} : Matched Eq x x := by
  cases x with
  | ok a => exact .ok (Eq.refl a)
  | error e => exact .error e e

theorem bind (h : Matched P x y) {f : α → Except ε γ} {g : β → Except ε' δ}
    (hfg : ∀ a b, P a b → Matched Q (f a) (g b)) : Matched Q (x >>= f) (y >>= g) := by
  cases h with
  | ok h => exact hfg _ _ h
  | error e e' => exact .error e e'

/-- What follows equal results need only be matched result by result. -/
theorem bindEq {x : Except ε α} {y : Except ε' α} (h : Matched Eq x y) {f : α → Except ε γ}
    {g : α → Except ε' δ} (hfg : ∀ a, Matched Q (f a) (g a)) : Matched Q (x >>= f) (y >>= g) := by
  refine h.bind ?_
  rintro a _ ⟨⟩
  exact hfg a

theorem mapError {η η' : Type} (h : Matched P x y) (f : ε → η) (g : ε' → η') :
    Matched P (x.mapError f) (y.mapError g) := by
  cases h with
  | ok h => exact .ok h
  | error e e' => exact .error (f e) (g e')

theorem imp {P' : α → β → Prop} (h : Matched P x y) (himp : ∀ a b, P a b → P' a b) :
    Matched P' x y := by
  cases h with
  | ok h => exact .ok (himp _ _ h)
  | error e e' => exact .error e e'

theorem symm (h : Matched P x y) : Matched (fun b a => P a b) y x := by
  cases h with
  | ok h => exact .ok h
  | error e e' => exact .error e' e

theorem trans {ε'' : Type} {R : β → γ → Prop} {z : Except ε'' γ} (h : Matched P x y)
    (h' : Matched R y z) : Matched (fun a c => ∃ b, P a b ∧ R b c) x z := by
  cases h with
  | ok h =>
    cases h' with
    | ok h' => exact .ok ⟨_, h, h'⟩
  | error e e' =>
    cases h' with
    | error e' e'' => exact .error e e''

/-- What is known of every success on the left may be relied on. -/
theorem and_left {R : α → Prop} (h : Matched P x y) (hx : ∀ a, x = .ok a → R a) :
    Matched (fun a b => P a b ∧ R a) x y := by
  cases h with
  | ok h => exact .ok ⟨h, hx _ (Eq.refl _)⟩
  | error e e' => exact .error e e'

theorem of_exists_iff (h : (∃ a, x = .ok a) ↔ ∃ b, y = .ok b)
    (hok : ∀ a b, x = .ok a → y = .ok b → P a b) : Matched P x y := by
  cases x with
  | ok a =>
    obtain ⟨b, hb⟩ := h.mp ⟨a, Eq.refl _⟩
    rw [hb]
    exact .ok (hok a b (Eq.refl _) hb)
  | error e =>
    cases y with
    | ok b =>
      obtain ⟨a, ha⟩ := h.mpr ⟨b, Eq.refl _⟩
      cases ha
    | error e' => exact .error e e'

theorem eq_ok_iff {x : Except ε α} {y : Except ε' α} (h : Matched Eq x y) (a : α) :
    x = .ok a ↔ y = .ok a := by
  cases h with
  | ok h => simp [h]
  | error e e' => simp

theorem toOption_eq {x : Except ε α} {y : Except ε' α} (h : Matched Eq x y) :
    x.toOption = y.toOption := by
  cases h with
  | ok h => exact congrArg some h
  | error e e' => exact Eq.refl none

theorem of_eq_ok_iff {x : Except ε α} {y : Except ε' α} (h : ∀ a, x = .ok a ↔ y = .ok a) :
    Matched Eq x y := by
  cases x with
  | ok a =>
    rw [(h a).mp (Eq.refl _)]
    exact .ok (Eq.refl a)
  | error e =>
    cases y with
    | ok a => cases (h a).mpr (Eq.refl _)
    | error e' => exact .error e e'

end Matched

end Eleven

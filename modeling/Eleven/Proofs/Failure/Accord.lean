import Eleven.Proofs.Failure.Matched

/-! Computations that both fail or both come to the same, whatever the failures are. -/
namespace Eleven

variable {σ α β : Type}

/-- What a computation gives and the state it leaves. A failure leaves none. -/
def Attempt.result (x : Attempt σ α) (s : σ) : Except Failure (α × σ) :=
  match x.run s with
  | (.ok a, u) => .ok (a, u)
  | (.error e, _) => .error e

namespace Attempt

theorem result_eq_of_run {x : Attempt σ α} {s u : σ} {a : α} (h : x.run s = (.ok a, u)) :
    x.result s = .ok (a, u) := by
  rw [result, h]

theorem result_eq_error {x : Attempt σ α} {s u : σ} {e : Failure} (h : x.run s = (.error e, u)) :
    x.result s = .error e := by
  rw [result, h]

theorem outcome_eq_ok_iff {x : Attempt σ α} {s : σ} {a : α} :
    x.outcome s = .ok a ↔ ∃ u, x.result s = .ok (a, u) := by
  unfold outcome result
  rcases x.run s with ⟨e | b, u⟩
  · simp
  · simp

theorem result_bind (x : Attempt σ α) (f : α → Attempt σ β) (s : σ) :
    (x >>= f).result s = (x.result s >>= fun p => (f p.1).result p.2) := by
  rcases hx : x.run s with ⟨e | a, u⟩
  · rw [result_eq_error hx, result_eq_error (run_bind_error hx f), error_bind]
  · rw [result_eq_of_run hx, result, run_bind_ok hx f, ok_bind, result]

theorem result_update (f : σ → Except Failure σ) (s : σ) :
    (update f).result s = (f s >>= fun u => .ok ((), u)) := by
  rw [result, update, run_of]
  cases f s <;> rfl

theorem outcome_bind_result (x : Attempt σ α) (f : α → Attempt σ β) (s : σ) :
    (x >>= f).outcome s = (x.result s >>= fun p => (f p.1).outcome p.2) := by
  rcases hx : x.run s with ⟨e | a, u⟩
  · rw [outcome_eq_of_run (run_bind_error hx f), result_eq_error hx, error_bind]
  · rw [outcome, run_bind_ok hx f, result_eq_of_run hx, ok_bind, outcome]

end Attempt

/-- From related states two computations both fail, or both succeed with the same and leave related
states. -/
def Accord (S : σ → σ → Prop) (x y : Attempt σ α) : Prop :=
  ∀ s s', S s s' → Matched (fun p q => p.1 = q.1 ∧ S p.2 q.2) (x.result s) (y.result s')

namespace Accord

variable {S : σ → σ → Prop}

theorem bind {x y : Attempt σ α} {f g : α → Attempt σ β} (h : Accord S x y)
    (hfg : ∀ a, Accord S (f a) (g a)) : Accord S (x >>= f) (y >>= g) := by
  intro s s' hs
  rw [Attempt.result_bind, Attempt.result_bind]
  apply (h s s' hs).bind
  rintro ⟨a, u⟩ ⟨_, u'⟩ ⟨rfl, hu⟩
  exact hfg a u u' hu

/-- Two changes of state one after the other, on both sides. -/
theorem update_update {f g f' g' : σ → Except Failure σ}
    (h : ∀ s s', S s s' → Matched S (f s >>= g) (f' s' >>= g')) :
    Accord S (Attempt.update f >>= fun _ => Attempt.update g)
      (Attempt.update f' >>= fun _ => Attempt.update g') := by
  have hresult : ∀ (f g : σ → Except Failure σ) (s : σ),
      (Attempt.update f >>= fun _ => Attempt.update g).result s =
        ((f s >>= g) >>= fun u => .ok ((), u)) := by
    intro f g s
    rw [Attempt.result_bind, Attempt.result_update]
    cases f s with
    | error e => rfl
    | ok u => exact Attempt.result_update g u
  intro s s' hs
  rw [hresult, hresult]
  apply (h s s' hs).bind
  intro u u' hu
  exact .ok ⟨rfl, hu⟩

theorem trans (hrefl : ∀ s s', S s s' → S s s) (htrans : ∀ s s' s'', S s s' → S s' s'' → S s s'')
    {x y z : Attempt σ α} (h : Accord S x y) (h' : Accord S y z) : Accord S x z := by
  intro s s' hs
  have hxz := (h s s (hrefl s s' hs)).trans (h' s s' hs)
  apply hxz.imp
  rintro ⟨a, u⟩ ⟨c, w⟩ ⟨⟨b, v⟩, ⟨hab, huv⟩, hbc, hvw⟩
  exact ⟨hab.trans hbc, htrans u v w huv hvw⟩

end Accord

end Eleven

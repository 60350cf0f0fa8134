import Eleven.Failure.Basic

/-! Computations over a state that outlives a failure. -/
namespace Eleven

abbrev Attempt (σ : Type) := ExceptT Failure (StateM σ)

namespace Attempt

variable {σ τ α β : Type}

/-- The outcome and the state after it. -/
def run (act : Attempt σ α) (s : σ) : Except Failure α × σ := act s

/-- An attempt from its outcome and the state after it. -/
def of (f : σ → Except Failure α × σ) : Attempt σ α := f

/-- The outcome alone, for a state that nobody looks at. -/
def outcome (act : Attempt σ α) (s : σ) : Except Failure α := (act.run s).1

/-- Runs `act` on the part of a state that `part` shows, and puts the part back. -/
def onPart (part : σ → τ) (put : τ → σ → σ) (act : Attempt τ α) : Attempt σ α :=
  of fun s =>
    let r := act.run (part s)
    (r.1, put r.2 s)

/-- Runs `after` on the state whether or not `act` succeeds. -/
def ensuring (act : Attempt σ α) (after : σ → σ) : Attempt σ α :=
  of fun s =>
    let r := act.run s
    (r.1, after r.2)

/-- A change of state that may be refused, which then leaves the state as it is. -/
def update (f : σ → Except Failure σ) : Attempt σ Unit :=
  of fun s =>
    match f s with
    | .ok s' => (.ok (), s')
    | .error e => (.error e, s)

/-- Changes the failure, if there is one. -/
def mapFailure (f : Failure → Failure) (act : Attempt σ α) : Attempt σ α :=
  of fun s =>
    let r := act.run s
    (r.1.mapError f, r.2)

/-- The outcome as a value, so that work can go on after a failure. -/
def observe (act : Attempt σ α) : Attempt σ (Except Failure α) :=
  of fun s =>
    let r := act.run s
    (.ok r.1, r.2)

@[simp] theorem run_of (f : σ → Except Failure α × σ) (s : σ) : (of f).run s = f s := rfl

@[simp] theorem run_pure (a : α) (s : σ) : (pure a : Attempt σ α).run s = (.ok a, s) := rfl

@[simp] theorem run_throw (e : Failure) (s : σ) :
    (throw e : Attempt σ α).run s = (.error e, s) := rfl

@[simp] theorem run_get (s : σ) : (get : Attempt σ σ).run s = (.ok s, s) := rfl

@[simp] theorem run_modify (f : σ → σ) (s : σ) :
    (modify f : Attempt σ Unit).run s = (.ok (), f s) := rfl

/-- What follows a success starts from the state it left; a failure keeps its state. -/
theorem run_bind (act : Attempt σ α) (f : α → Attempt σ β) (s : σ) :
    (act >>= f).run s =
      match act.run s with
      | (.ok a, s') => (f a).run s'
      | (.error e, s') => (.error e, s') := by
  simp only [run, bind, ExceptT.bind, ExceptT.mk, StateT.bind]
  rcases act s with ⟨r | r, s'⟩ <;> rfl

end Attempt

end Eleven

import Eleven.Lazy.Resolve
import Eleven.Proofs.Failure.Outcome

/-! The value of an expression where every symbol has a fixed meaning. -/
namespace Eleven

/-- What each symbol comes to. -/
abbrev Env := String → Except Failure Datum

/-- Looks a symbol up in an environment that nothing changes. -/
def Env.look (name : String) : Attempt Env Datum := Attempt.of fun env => (env name, env)

@[simp] theorem Env.run_look (name : String) (env : Env) :
    (Env.look name).run env = (env name, env) := rfl

namespace Lazy

variable {σ τ : Type}

/-- What a relation between computations has to keep for evaluations to be related: outcomes that
do not touch the state, and sequences. -/
theorem eval_related (R : ∀ {α : Type}, Attempt σ α → Attempt τ α → Prop)
    (hlift : ∀ {α : Type} (e : Except Failure α), R (liftM e) (liftM e))
    (hbind : ∀ {α β : Type} {a : Attempt σ α} {b : Attempt τ α} {f : α → Attempt σ β}
      {g : α → Attempt τ β}, R a b → (∀ x, R (f x) (g x)) → R (a >>= f) (b >>= g))
    {look : String → Attempt σ Datum} {look' : String → Attempt τ Datum}
    (hlook : ∀ name, R (look name) (look' name)) (v : Lazy) :
    R (v.eval look) (v.eval look') := by
  induction v with
  | blank => exact hlift (.error (.fault .emptyValue))
  | literal d => exact hlift (.ok d)
  | symbol name => exact hlook name
  | offset base k ih =>
    exact hbind ih fun d => hbind (hlift d.expectInt) fun n => hlift (.ok (Datum.int (n + k)))
  | binary op a b iha ihb =>
    exact hbind iha fun dx => hbind (hlift dx.expectInt) fun x =>
      hbind ihb fun dy => hbind (hlift dy.expectInt) fun y => hlift (op.apply x y)
  | repeated count elem ihc ihe =>
    refine hbind ihc fun dn => hbind (hlift dn.expectInt) fun n => ?_
    have hrest : ∀ _ : PUnit, R
        (do let d ← elem.eval look; let p ← d.pattern; liftM (repeatPattern n p) : Attempt σ Datum)
        (do let d ← elem.eval look'; let p ← d.pattern; liftM (repeatPattern n p)) :=
      fun _ => hbind ihe fun d => hbind (hlift d.pattern) fun p => hlift (repeatPattern n p)
    by_cases hn : n < 0
    · simp only [hn, if_true]
      exact hbind (hlift (Except.error (.fault (.negativeCount n)))) hrest
    · simp only [hn, if_false]
      exact hrest ⟨⟩
  | select cond a b ihc iha ihb =>
    refine hbind ihc fun dc => hbind (hlift dc.expectBool) fun c => ?_
    cases c with
    | false => exact hbind ihb fun d => hlift (d.expect b.kind)
    | true => exact hbind iha fun d => hlift (d.expect a.kind)
  | step v f k ih => exact hbind ih fun d => hlift (f d)

/-- The datum a value comes to in an environment. -/
def value (env : Env) (v : Lazy) : Except Failure Datum := (v.eval Env.look).outcome env

/-- The integer a value comes to in an environment. -/
def intValue (env : Env) (v : Lazy) : Except Failure Int64 := v.value env >>= Datum.expectInt

theorem inert_eval (v : Lazy) : (v.eval Env.look).Inert :=
  @eval_related Env Env (fun {_} _ b => b.Inert) (fun e => .lift e)
    (fun ha hf => ha.bind hf) Env.look Env.look (fun _ _ => rfl) v

theorem outcome_resolveInt (env : Env) (v : Lazy) :
    (v.resolveInt Env.look).outcome env = v.intValue env := by
  rw [resolveInt, intValue]
  cases h : v.value env with
  | error e => exact (inert_eval v).outcome_bind_error h _
  | ok d => exact (inert_eval v).outcome_bind_ok h _

/-- Where look-ups only read a state, evaluation reads the values off it. -/
theorem run_eval_of_look {look : String → Attempt σ Datum} {s : σ} {env : Env}
    (hlook : ∀ name, (look name).run s = (env name, s)) (v : Lazy) :
    (v.eval look).run s = (v.value env, s) := by
  have h : (v.eval look).run s = ((v.eval Env.look).outcome env, s) ∧ (v.eval Env.look).Inert := by
    refine eval_related (R := fun a b => a.run s = (b.outcome env, s) ∧ b.Inert)
      (fun e => ⟨rfl, .lift e⟩) ?_ (fun name => ⟨hlook name, fun _ => rfl⟩) v
    rintro α β a b f g ⟨ha, hb⟩ hfg
    refine ⟨?_, hb.bind fun x => (hfg x).2⟩
    cases hr : b.outcome env with
    | error e =>
      rw [hr] at ha
      rw [Attempt.run_bind_error ha, hb.outcome_bind_error hr]
    | ok x =>
      rw [hr] at ha
      rw [Attempt.run_bind_ok ha, hb.outcome_bind_ok hr]
      exact (hfg x).1
  exact h.1

end Lazy

end Eleven

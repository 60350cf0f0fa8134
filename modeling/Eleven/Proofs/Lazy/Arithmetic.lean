import Eleven.Proofs.Lazy.Evaluation
import Eleven.Proofs.Lazy.Value

/-! What the values of expressions are made of, and that building an expression early or late makes
no difference to its integer. -/
namespace Eleven.Lazy

variable (env : Env)

@[simp] theorem value_literal (d : Datum) : (literal d).value env = .ok d := rfl

@[simp] theorem value_symbol (name : String) : (symbol name).value env = env name := rfl

@[simp] theorem intValue_int (n : Int64) : (int n).intValue env = .ok n := rfl

/-- An integer that is resolved first, as the value it has. -/
theorem outcome_resolveInt_bind {α : Type} (v : Lazy) (f : Int64 → Attempt Env α) :
    (v.resolveInt Env.look >>= f).outcome env = (v.intValue env >>= fun n => (f n).outcome env) := by
  have hinert : (v.resolveInt Env.look).Inert := (inert_eval v).bind fun d => .lift d.expectInt
  rw [hinert.outcome_bind, outcome_resolveInt]

theorem value_offset (base : Lazy) (k : Int64) :
    (offset base k).value env = (base.intValue env >>= fun n => .ok (.int (n + k))) := by
  rw [value, eval_offset, outcome_resolveInt_bind]
  rfl

theorem value_binary (op : BinaryOp) (a b : Lazy) :
    (binary op a b).value env =
      (a.intValue env >>= fun x => b.intValue env >>= fun y => op.apply x y) := by
  rw [value, eval_binary]
  simp only [outcome_resolveInt_bind]
  rfl

theorem value_repeated (count elem : Lazy) :
    (repeated count elem).value env = (count.intValue env >>= fun n =>
      if n < 0 then .error (.fault (.negativeCount n))
      else elem.value env >>= fun d => d.pattern >>= repeatPattern n) := by
  rw [value, eval_repeated, outcome_resolveInt_bind]
  congr 1
  funext n
  by_cases hn : n < 0
  · simp only [hn, if_true]
    rfl
  · simp only [hn, if_false]
    rw [(inert_eval elem).outcome_bind]
    congr 1
    funext d
    exact (Attempt.Inert.lift d.pattern).outcome_bind _ env

theorem value_select (cond a b : Lazy) :
    (select cond a b).value env = (cond.value env >>= fun dc => dc.expectBool >>= fun c =>
      if c then a.value env >>= fun d => d.expect a.kind
      else b.value env >>= fun d => d.expect b.kind) := by
  refine ((inert_eval cond).outcome_bind _ env).trans ?_
  rw [value]
  congr 1
  funext dc
  rw [(Attempt.Inert.lift dc.expectBool).outcome_bind]
  congr 1
  funext c
  cases c with
  | false => exact (inert_eval b).outcome_bind _ env
  | true => exact (inert_eval a).outcome_bind _ env

theorem value_step (v : Lazy) (f : Datum → Except Failure Datum) (k : Kind) :
    (step v f k).value env = (v.value env >>= f) :=
  (inert_eval v).outcome_bind _ env

theorem value_mapInt (v : Lazy) (f : Int64 → Except Failure Int64) :
    (v.mapInt f).value env = (v.intValue env >>= fun n => f n >>= fun m => .ok (.int m)) := by
  rw [mapInt, value_step, intValue, bind_assoc]

@[simp] theorem intValue_mapInt (v : Lazy) (f : Int64 → Except Failure Int64) :
    (v.mapInt f).intValue env = (v.intValue env >>= f) := by
  rw [← outcome_resolveInt, resolveInt_mapInt, outcome_resolveInt_bind]
  rfl

@[simp] theorem intValue_add (a b : Lazy) :
    (a.add b).intValue env =
      (a.intValue env >>= fun x => b.intValue env >>= fun y => .ok (x + y)) := by
  rw [← outcome_resolveInt, resolveInt_add]
  simp only [outcome_resolveInt_bind]
  rfl

@[simp] theorem intValue_addInt (v : Lazy) (k : Int64) :
    (v.addInt k).intValue env = (v.intValue env >>= fun n => .ok (n + k)) := by
  rw [addInt, intValue_add]
  rfl

@[simp] theorem intValue_sub (a b : Lazy) :
    (a.sub b).intValue env =
      (a.intValue env >>= fun x => b.intValue env >>= fun y => .ok (x - y)) := by
  rw [← outcome_resolveInt, resolveInt_sub]
  simp only [outcome_resolveInt_bind]
  rfl

@[simp] theorem intValue_mul (a b : Lazy) :
    (a.mul b).intValue env =
      (a.intValue env >>= fun x => b.intValue env >>= fun y => .ok (x * y)) := by
  rw [← outcome_resolveInt, resolveInt_mul]
  simp only [outcome_resolveInt_bind]
  rfl

/-- The length of a value that comes to a list. -/
theorem intValue_length {v : Lazy} {xs : List Int64} (h : v.value env = .ok (.list xs)) :
    v.length.intValue env = .ok (Int64.ofNat xs.length) := by
  unfold length
  split
  · cases h
    rfl
  · rw [intValue, value_step, h]
    rfl

end Eleven.Lazy

import Eleven.Lazy.Resolve
import Eleven.Proofs.Failure.Outcome

/-! What lazy values evaluate to, whatever the look-up of a symbol does. Arithmetic that is carried out
while a value is built gives the integer that arithmetic on the results would give. -/
namespace Eleven

namespace Attempt

variable {σ α β : Type}

theorem liftM_ok (a : α) : (liftM (Except.ok a : Except Failure α) : Attempt σ α) = pure a := rfl

theorem liftM_bind (x : Except Failure α) (f : α → Except Failure β) :
    (liftM (x >>= f) : Attempt σ β) = liftM x >>= fun a => liftM (f a) := by
  cases x <;> rfl

end Attempt

namespace Lazy

variable {σ : Type} (look : String → Attempt σ Datum)

section Eval

theorem eval_offset (base : Lazy) (k : Int64) :
    (offset base k).eval look = (do
      let n ← base.resolveInt look
      pure (.int (n + k))) := by
  rw [resolveInt, bind_assoc]
  rfl

theorem eval_binary (op : BinaryOp) (a b : Lazy) :
    (binary op a b).eval look = (do
      let x ← a.resolveInt look
      let y ← b.resolveInt look
      op.apply x y) := by
  simp only [resolveInt, bind_assoc]
  rfl

theorem eval_repeated (count elem : Lazy) :
    (repeated count elem).eval look = (do
      let n ← count.resolveInt look
      if n < 0 then throw (.fault (.negativeCount n))
      else do
        let d ← elem.eval look
        let p ← d.pattern
        repeatPattern n p) := by
  rw [resolveInt, bind_assoc]
  rfl

theorem eval_select (cond a b : Lazy) :
    (select cond a b).eval look = (do
      let c ← cond.resolveBool look
      if c then a.resolve look a.kind else b.resolve look b.kind) := by
  rw [resolveBool, bind_assoc]
  rfl

theorem eval_step (v : Lazy) (f : Datum → Except Failure Datum) (k : Kind) :
    (step v f k).eval look = (do
      let d ← v.eval look
      f d) := rfl

theorem eval_mapInt (v : Lazy) (f : Int64 → Except Failure Int64) :
    (v.mapInt f).eval look = (do
      let n ← v.resolveInt look
      let m ← f n
      pure (.int m)) := by
  rw [mapInt, eval_step, resolveInt, bind_assoc]
  simp only [Attempt.liftM_bind]
  rfl

theorem eval_length (v : Lazy) :
    v.length.eval look = (do
      let xs ← v.resolveList look
      pure (.int (Int64.ofNat xs.length))) := by
  unfold length
  split
  · rfl
  · rw [eval_step, resolveList, bind_assoc]
    simp only [Attempt.liftM_bind]
    rfl

theorem resolve_any (v : Lazy) : v.resolve look .any = v.eval look := by
  rw [resolve]
  exact bind_pure (v.eval look)

end Eval

section Integers

theorem resolveInt_int (n : Int64) : (int n).resolveInt look = pure n := rfl

theorem resolveInt_offset (base : Lazy) (k : Int64) :
    (offset base k).resolveInt look = (do
      let n ← base.resolveInt look
      pure (n + k)) := by
  rw [resolveInt, eval_offset, bind_assoc]
  rfl

theorem resolveInt_mapInt (v : Lazy) (f : Int64 → Except Failure Int64) :
    (v.mapInt f).resolveInt look = (do
      let n ← v.resolveInt look
      f n) := by
  rw [resolveInt, eval_mapInt]
  simp only [bind_assoc, pure_bind]
  congr 1
  funext n
  exact bind_pure (liftM (f n))

/-- An operation that always gives an integer. -/
theorem resolveInt_binary {op : BinaryOp} {f : Int64 → Int64 → Int64}
    (hop : ∀ x y, op.apply x y = .ok (.int (f x y))) (a b : Lazy) :
    (binary op a b).resolveInt look = (do
      let x ← a.resolveInt look
      let y ← b.resolveInt look
      pure (f x y)) := by
  rw [resolveInt, eval_binary]
  simp only [bind_assoc, hop]
  rfl

theorem resolveInt_addConst (v : Lazy) (k : Int64) :
    (v.addConst k).resolveInt look = (do
      let n ← v.resolveInt look
      pure (n + k)) := by
  unfold addConst
  by_cases hk : k = 0 ∧ v.kind = .int
  · rw [if_pos hk, hk.1]
    simp only [Int64.add_zero, bind_pure]
  · rw [if_neg hk]
    cases v with
    | offset base j => simp only [resolveInt_offset, bind_assoc, pure_bind, Int64.add_assoc]
    | _ => exact resolveInt_offset look _ k

theorem intConstant?_eq_some {v : Lazy} {n : Int64} (h : v.intConstant? = some n) : v = int n := by
  unfold intConstant? at h
  split at h
  · cases h
    rfl
  · cases h

theorem resolveInt_add (a b : Lazy) :
    (a.add b).resolveInt look = (do
      let x ← a.resolveInt look
      let y ← b.resolveInt look
      pure (x + y)) := by
  rw [add]
  cases ha : a.intConstant? with
  | some x =>
    have hax : a = int x := intConstant?_eq_some ha
    cases hb : b.intConstant? with
    | some y =>
      have hby : b = int y := intConstant?_eq_some hb
      rw [hax, hby]
      rfl
    | none =>
      -- The constant goes to the other side; it has no effect that could come too late.
      have hcomm : (b.addConst x).resolveInt look = (do
          let y ← b.resolveInt look
          pure (x + y)) := by
        simp only [resolveInt_addConst, Int64.add_comm]
      rw [hax, resolveInt_int, pure_bind]
      exact hcomm
  | none =>
    cases hb : b.intConstant? with
    | some y =>
      have hby : b = int y := intConstant?_eq_some hb
      rw [hby]
      exact resolveInt_addConst look a y
    | none => exact resolveInt_binary look (fun _ _ => rfl) a b

theorem resolveInt_sub (a b : Lazy) :
    (a.sub b).resolveInt look = (do
      let x ← a.resolveInt look
      let y ← b.resolveInt look
      pure (x - y)) := by
  rw [sub]
  cases hb : b.intConstant? with
  | some y =>
    have hby : b = int y := intConstant?_eq_some hb
    change (a.add (int (-y))).resolveInt look = _
    rw [hby, resolveInt_add]
    simp only [resolveInt_int, pure_bind, Int64.sub_eq_add_neg]
  | none => exact resolveInt_binary look (fun _ _ => rfl) a b

theorem resolveInt_mul (a b : Lazy) :
    (a.mul b).resolveInt look = (do
      let x ← a.resolveInt look
      let y ← b.resolveInt look
      pure (x * y)) := by
  have hlate : (binary .mul a b).resolveInt look = (do
      let x ← a.resolveInt look
      let y ← b.resolveInt look
      pure (x * y)) := resolveInt_binary look (fun _ _ => rfl) a b
  rw [mul]
  cases ha : a.intConstant? with
  | none => exact hlate
  | some x =>
    cases hb : b.intConstant? with
    | none => exact hlate
    | some y =>
      have hax : a = int x := intConstant?_eq_some ha
      have hby : b = int y := intConstant?_eq_some hb
      rw [hax, hby]
      rfl

theorem resolveInt_neg (v : Lazy) :
    v.neg.resolveInt look = (do
      let x ← v.resolveInt look
      pure (-x)) := by
  rw [neg]
  cases hv : v.intConstant? with
  | some x =>
    have hvx : v = int x := intConstant?_eq_some hv
    rw [hvx]
    rfl
  | none => exact resolveInt_mapInt look v _

end Integers

end Lazy

end Eleven

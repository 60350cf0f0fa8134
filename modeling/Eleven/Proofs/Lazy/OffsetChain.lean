import Eleven.Lazy.Scope
import Eleven.Proofs.Lazy.Evaluation
import Mathlib.Algebra.BigOperators.Group.List.Basic
import Mathlib.Algebra.Ring.Int.Defs

/-! Known integers that are added one after the other. They come together in one offset, whatever
value they are added to, so a location counter is as deep after thousands of additions as after one. -/
namespace Eleven.Lazy

/-- The values that can be made: each by one of the operations on values. -/
inductive Built : Lazy → Prop
  | blank : Built .blank
  | literal (d : Datum) : Built (.literal d)
  | symbol (name : String) : Built (.symbol name)
  | add {a b : Lazy} : Built a → Built b → Built (a.add b)
  | addInt {v : Lazy} (k : Int64) : Built v → Built (v.addInt k)
  | sub {a b : Lazy} : Built a → Built b → Built (a.sub b)
  | mul {a b : Lazy} : Built a → Built b → Built (a.mul b)
  | div {a b : Lazy} : Built a → Built b → Built (a.div b)
  | mod {a b : Lazy} : Built a → Built b → Built (a.mod b)
  | equal {a b : Lazy} : Built a → Built b → Built (a.equal b)
  | neg {v : Lazy} : Built v → Built v.neg
  | length {v : Lazy} : Built v → Built v.length
  | mapInt {v : Lazy} (f : Int64 → Except Failure Int64) : Built v → Built (v.mapInt f)
  | step {v : Lazy} (f : Datum → Except Failure Datum) (kind : Kind) : Built v → Built (.step v f kind)
  | repeated {count elem : Lazy} : Built count → Built elem → Built (.repeated count elem)
  | select {cond a b : Lazy} : Built cond → Built a → Built b → Built (.select cond a b)

/-- An offset to which no function is applied. -/
def isOffset : Lazy → Bool
  | .offset _ _ => true
  | _ => false

/-- Nowhere in the value is an offset the base of an offset. -/
def Flat : Lazy → Prop
  | .blank => True
  | .literal _ => True
  | .symbol _ => True
  | .offset base _ => base.isOffset = false ∧ base.Flat
  | .binary _ a b => a.Flat ∧ b.Flat
  | .repeated count elem => count.Flat ∧ elem.Flat
  | .select cond a b => cond.Flat ∧ a.Flat ∧ b.Flat
  | .step v _ _ => v.Flat

/-- How many values stand inside each other. -/
def depth : Lazy → Nat
  | .blank => 0
  | .literal _ => 0
  | .symbol _ => 0
  | .offset base _ => base.depth + 1
  | .binary _ a b => max a.depth b.depth + 1
  | .repeated count elem => max count.depth elem.depth + 1
  | .select cond a b => max cond.depth (max a.depth b.depth) + 1
  | .step v _ _ => v.depth + 1

/-- What an offset counts from; any other value counts from itself. -/
def origin : Lazy → Lazy
  | .offset base _ => base
  | v => v

/-- How far a value is from its origin. -/
def shift : Lazy → Int64
  | .offset _ k => k
  | _ => 0

/-- Adds known integers one after the other. -/
def addAll (v : Lazy) (ks : List Int64) : Lazy := ks.foldl addInt v

/-- The sum of integers, not cut down to 64 bits. -/
def total (ks : List Int64) : Int := (ks.map Int64.toInt).sum

theorem total_cons (k : Int64) (ks : List Int64) : total (k :: ks) = k.toInt + total ks := by
  rw [total, List.map_cons, List.sum_cons, total]

theorem ofInt_toInt_add_total (n : Int64) (ks : List Int64) :
    Int64.ofInt (n.toInt + total ks) = n + Int64.ofInt (total ks) := by
  rw [Int64.ofInt_add, Int64.ofInt_toInt]

/-- Cutting down at every addition is cutting down the sum. -/
theorem add_ofInt_total_cons (n k : Int64) (ks : List Int64) :
    n + Int64.ofInt (total (k :: ks)) = n + k + Int64.ofInt (total ks) := by
  rw [total_cons, ofInt_toInt_add_total, Int64.add_assoc]

section Shape

variable {v : Lazy}

theorem Flat.isOffset_origin (h : v.Flat) : v.origin.isOffset = false := by
  cases v with
  | offset base k => exact h.1
  | _ => rfl

theorem Flat.origin (h : v.Flat) : v.origin.Flat := by
  cases v with
  | offset base k => exact h.2
  | _ => exact h

theorem depth_origin_le (v : Lazy) : v.origin.depth ≤ v.depth := by
  cases v with
  | offset base k => exact Nat.le_succ base.depth
  | _ => exact Nat.le_refl _

theorem eq_or_offset_origin (v : Lazy) : v.origin = v ∨ ∃ k, v = offset v.origin k := by
  cases v with
  | offset base k => exact .inr ⟨k, rfl⟩
  | _ => exact .inl rfl

/-- What is added goes into one offset from the origin. -/
theorem addConst_eq (v : Lazy) (k : Int64) :
    v.addConst k = if k = 0 ∧ v.kind = .int then v else offset v.origin (v.shift + k) := by
  unfold addConst
  cases v with
  | offset base j => rfl
  | _ => simp only [origin, shift, Int64.zero_add]

theorem addInt_of_not_constant (h : v.intConstant? = none) (k : Int64) :
    v.addInt k = v.addConst k := by
  rw [addInt, add, h]
  rfl

end Shape

section Invariant

variable {a b v : Lazy}

theorem Flat.addConst (h : v.Flat) (k : Int64) : (v.addConst k).Flat := by
  rw [addConst_eq]
  split
  · exact h
  · exact ⟨h.isOffset_origin, h.origin⟩

theorem Flat.add (ha : a.Flat) (hb : b.Flat) : (a.add b).Flat := by
  unfold Lazy.add
  split
  · trivial
  · exact ha.addConst _
  · exact hb.addConst _
  · exact ⟨ha, hb⟩

theorem Flat.sub (ha : a.Flat) (hb : b.Flat) : (a.sub b).Flat := by
  unfold Lazy.sub
  split
  · exact ha.add trivial
  · exact ⟨ha, hb⟩

theorem Flat.mul (ha : a.Flat) (hb : b.Flat) : (a.mul b).Flat := by
  unfold Lazy.mul
  split
  · trivial
  · exact ⟨ha, hb⟩

theorem Flat.neg (h : v.Flat) : v.neg.Flat := by
  unfold Lazy.neg
  split
  · trivial
  · exact h

theorem Flat.length (h : v.Flat) : v.length.Flat := by
  unfold Lazy.length
  split
  · trivial
  · exact h

/-- One case for each operation on values. -/
theorem Built.flat (h : v.Built) : v.Flat := by
  induction h with
  | blank => trivial
  | literal d => trivial
  | symbol name => trivial
  | add _ _ ha hb => exact ha.add hb
  | addInt k _ hv => exact hv.add trivial
  | sub _ _ ha hb => exact ha.sub hb
  | mul _ _ ha hb => exact ha.mul hb
  | div _ _ ha hb => exact ⟨ha, hb⟩
  | mod _ _ ha hb => exact ⟨ha, hb⟩
  | equal _ _ ha hb => exact ⟨ha, hb⟩
  | neg _ hv => exact hv.neg
  | length _ hv => exact hv.length
  | mapInt f _ hv => exact hv
  | step f kind _ hv => exact hv
  | repeated _ _ hcount helem => exact ⟨hcount, helem⟩
  | select _ _ _ hcond ha hb => exact ⟨hcond, ha, hb⟩

end Invariant

section Chains

variable {v : Lazy}

theorem Built.addAll (h : v.Built) (ks : List Int64) : (v.addAll ks).Built := by
  induction ks generalizing v with
  | nil => exact h
  | cons k ks ih => exact ih (.addInt k h)

theorem addAll_int (n : Int64) (ks : List Int64) :
    (int n).addAll ks = int (n + Int64.ofInt (total ks)) := by
  induction ks generalizing n with
  | nil => exact congrArg int (Int64.add_zero n).symm
  | cons k ks ih =>
    rw [add_ofInt_total_cons]
    exact ih (n + k)

theorem addAll_offset (base : Lazy) (j : Int64) (ks : List Int64) :
    (offset base j).addAll ks = offset base (j + Int64.ofInt (total ks)) := by
  induction ks generalizing j with
  | nil => exact congrArg (offset base) (Int64.add_zero j).symm
  | cons k ks ih =>
    have hadd : (offset base j).addInt k = offset base (j + k) := by
      rw [addInt_of_not_constant rfl, addConst_eq]
      split
      · next hk => rw [hk.1, Int64.add_zero]
      · rfl
    rw [add_ofInt_total_cons, ← ih (j + k), ← hadd]
    rfl

/-- Zeros may leave a value as it is. From the first addition on that does not, there is one offset
from the origin, which takes up the rest. -/
theorem addAll_of_not_constant (h : v.intConstant? = none) (ks : List Int64) :
    v.addAll ks = v ∨ v.addAll ks = offset v.origin (v.shift + Int64.ofInt (total ks)) := by
  induction ks with
  | nil => exact .inl rfl
  | cons k ks ih =>
    have hstep : v.addAll (k :: ks) = (v.addConst k).addAll ks := by
      rw [← addInt_of_not_constant h]
      rfl
    rw [hstep, addConst_eq, add_ofInt_total_cons]
    by_cases hk : k = 0 ∧ v.kind = .int
    · rw [if_pos hk, hk.1, Int64.add_zero]
      exact ih
    · rw [if_neg hk]
      exact .inr (addAll_offset _ _ ks)

theorem depth_addAll_le (v : Lazy) (ks : List Int64) : (v.addAll ks).depth ≤ v.depth + 1 := by
  cases h : v.intConstant? with
  | some n =>
    rw [intConstant?_eq_some h, addAll_int]
    exact Nat.zero_le _
  | none =>
    rcases addAll_of_not_constant h ks with heq | heq
    · rw [heq]
      exact Nat.le_succ v.depth
    · rw [heq]
      exact Nat.succ_le_succ (depth_origin_le v)

theorem resolveInt_addAll {σ : Type} (look : String → Attempt σ Datum) (v : Lazy)
    (ks : List Int64) :
    (v.addAll ks).resolveInt look = (do
      let n ← v.resolveInt look
      pure (n + Int64.ofInt (total ks))) := by
  induction ks generalizing v with
  | nil =>
    have hzero : Int64.ofInt (total []) = 0 := rfl
    simp only [hzero, Int64.add_zero, bind_pure]
    rfl
  | cons k ks ih =>
    have hadd : (v.addInt k).resolveInt look = (do
        let n ← v.resolveInt look
        pure (n + k)) := by
      rw [addInt, resolveInt_add]
      simp only [resolveInt_int, pure_bind]
    have hstep : v.addAll (k :: ks) = (v.addInt k).addAll ks := rfl
    rw [hstep, ih, hadd]
    simp only [bind_assoc, pure_bind, add_ofInt_total_cons]

/-- Adding known integers one after the other to a value makes a known integer of a known integer.
Any other value stays, or becomes one offset from the value or from what the value is an offset from,
which is no offset itself. So no offset of the result has an offset for its base, and the result is at
most one deeper than the value. In every context it comes to the integer of the value and the sum of
the added ones, cut down to 64 bits, or fails as the value does. -/
theorem offset_chain_flat (hv : v.Built) (ks : List Int64) :
    (∀ n, v = int n → v.addAll ks = int (Int64.ofInt (n.toInt + total ks))) ∧
      (v.intConstant? = none → v.addAll ks = v ∨ ∃ base k, v.addAll ks = offset base k ∧
        base.isOffset = false ∧ (base = v ∨ ∃ j, v = offset base j)) ∧
      (v.addAll ks).Flat ∧ (v.addAll ks).depth ≤ v.depth + 1 ∧
      ∀ (σ : Type) (look : String → Attempt σ Datum), (v.addAll ks).resolveInt look = (do
        let n ← v.resolveInt look
        pure (Int64.ofInt (n.toInt + total ks))) := by
  simp only [ofInt_toInt_add_total]
  refine ⟨?_, ?_, (hv.addAll ks).flat, depth_addAll_le v ks,
    fun σ look => resolveInt_addAll look v ks⟩
  · rintro n rfl
    exact addAll_int n ks
  · intro hconstant
    rcases addAll_of_not_constant hconstant ks with heq | heq
    · exact .inl heq
    · exact .inr ⟨v.origin, _, heq, hv.flat.isOffset_origin, eq_or_offset_origin v⟩

/-- A location counter that starts at a symbol and goes on by words. -/
theorem offset_chain_flat_words :
    (symbol "N").Built ∧ ((symbol "N").addAll (List.replicate 10000 2)).depth ≤ 1 ∧
      (((symbol "N").addAll (List.replicate 10000 2)).resolveInt Scope.lookup).outcome
        (Scope.ofInts [("N", 5)]) = .ok 20005 := by
  have hbuilt : (symbol "N").Built := .symbol "N"
  obtain ⟨-, -, -, hdepth, hresolve⟩ := offset_chain_flat hbuilt (List.replicate 10000 2)
  have htotal : total (List.replicate 10000 2) = 20000 := by
    rw [total, List.map_replicate, List.sum_replicate]
    rfl
  refine ⟨hbuilt, hdepth, ?_⟩
  rw [hresolve, htotal]
  rfl

end Chains

end Eleven.Lazy

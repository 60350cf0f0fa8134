import Eleven.Lazy.Scope
import Eleven.Proofs.Failure.Raising
import Eleven.Proofs.Lazy.Folding

/-! The kinds of data that arithmetic comes to. Every operation looks at its operands and comes to a
datum of one kind, but for one case: a value that promises an integer is its own sum with zero, and
nobody looks whether it keeps the promise. -/
namespace Eleven

/-- What an operation gives is of the kind that it promises. -/
theorem BinaryOp.kind_of_apply {op : BinaryOp} {x y : Int64} {d : Datum} (h : op.apply x y = .ok d)
    (a b : Lazy) : d.kind = (Lazy.binary op a b).kind := by
  cases op with
  | div =>
    dsimp only [apply] at h
    split at h
    · cases h
    · cases h
      rfl
  | mod =>
    dsimp only [apply] at h
    split at h
    · cases h
    · split at h
      · cases h
        rfl
      · cases h
        rfl
  | _ =>
    cases h
    rfl

namespace Lazy

variable {σ : Type} (look : String → Attempt σ Datum)

/-- Whatever the value comes to is of the kind. -/
abbrev ComesTo (k : Kind) (v : Lazy) : Prop := Returns (fun d => d.kind = k) (v.resolve look .any)

theorem comesTo_of_eval {k : Kind} {v : Lazy} (h : Returns (fun d => d.kind = k) (v.eval look)) :
    v.ComesTo look k := by
  rw [ComesTo, resolve_any]
  exact h

section Kinds

variable {look}

theorem Integral.comesTo {v : Lazy} (h : v.Integral look) : v.ComesTo look .int := by
  apply comesTo_of_eval
  rw [h]
  apply (returns_true _).bind
  intro n _
  exact returns_pure rfl

variable (look)

theorem comesTo_binary (op : BinaryOp) (a b : Lazy) :
    (binary op a b).ComesTo look (binary op a b).kind := by
  apply comesTo_of_eval
  rw [eval_binary]
  apply (returns_true _).bind
  intro x _
  apply (returns_true _).bind
  intro y _
  exact returns_lift fun d hd => BinaryOp.kind_of_apply hd a b

theorem comesTo_length (v : Lazy) : v.length.ComesTo look .int := by
  apply comesTo_of_eval
  rw [eval_length]
  apply (returns_true _).bind
  intro xs _
  exact returns_pure rfl

end Kinds

/-- A value that promises an integer, and to which zero is added. -/
def handedOn? (v zero : Lazy) : Option Lazy :=
  if zero.intConstant? = some 0 ∧ v.kind = .int then some v else none

section HandedOn

variable {a b v : Lazy}

theorem handedOn?_eq_some : handedOn? a b = some v ↔ b = int 0 ∧ a.kind = .int ∧ v = a := by
  unfold handedOn?
  constructor
  · intro h
    split at h
    · next hzero =>
      cases h
      exact ⟨intConstant?_eq_some hzero.1, hzero.2, rfl⟩
    · cases h
  · rintro ⟨rfl, hkind, rfl⟩
    exact if_pos ⟨rfl, hkind⟩

theorem handedOn?_eq_none {k : Int64} (h : handedOn? a (int k) = none) :
    ¬ (k = 0 ∧ a.kind = .int) := by
  rintro ⟨rfl, hkind⟩
  rw [handedOn?_eq_some.mpr ⟨rfl, hkind, rfl⟩] at h
  cases h

theorem add_zero_of_kind (hkind : v.kind = .int) : v.add (int 0) = v := by
  unfold add
  cases hv : v.intConstant? with
  | none => exact addConst_eq_self ⟨rfl, hkind⟩
  | some x =>
    have hvx : v = int x := intConstant?_eq_some hv
    rw [hvx]
    exact congrArg int (Int64.add_zero x)

theorem zero_add_of_kind (hkind : v.kind = .int) : (int 0).add v = v := by
  unfold add
  cases hv : v.intConstant? with
  | none => exact addConst_eq_self ⟨rfl, hkind⟩
  | some x =>
    have hvx : v = int x := intConstant?_eq_some hv
    rw [hvx]
    exact congrArg int (Int64.zero_add x)

theorem sub_zero_of_kind (hkind : v.kind = .int) : v.sub (int 0) = v := by
  change v.add (int (-0)) = v
  rw [Int64.neg_zero]
  exact add_zero_of_kind hkind

/-- A sum that hands nothing on adds integers. -/
theorem integral_add (h : (handedOn? a b).or (handedOn? b a) = none) :
    (a.add b).Integral look := by
  obtain ⟨hright, hleft⟩ := Option.or_eq_none_iff.mp h
  unfold add
  cases ha : a.intConstant? with
  | some x =>
    rw [intConstant?_eq_some ha] at hleft
    cases b.intConstant? with
    | some y => exact integral_int _
    | none => exact integral_addConst (handedOn?_eq_none hleft)
  | none =>
    cases hb : b.intConstant? with
    | some y =>
      rw [intConstant?_eq_some hb] at hright
      exact integral_addConst (handedOn?_eq_none hright)
    | none => exact integral_binary (fun _ _ => rfl) a b

theorem integral_sub (h : handedOn? a b = none) : (a.sub b).Integral look := by
  unfold sub
  cases hb : b.intConstant? with
  | none => exact integral_binary (fun _ _ => rfl) a b
  | some y =>
    rw [intConstant?_eq_some hb] at h
    change (a.add (int (-y))).Integral look
    unfold add
    cases a.intConstant? with
    | some x => exact integral_int _
    | none =>
      apply integral_addConst
      rintro ⟨hzero, hkind⟩
      exact handedOn?_eq_none h ⟨Int64.neg_inj.mp hzero, hkind⟩

/-- The operand that a sum is, if it is one of them. -/
theorem add_eq_of_handedOn (h : (handedOn? a b).or (handedOn? b a) = some v) : a.add b = v := by
  rcases Option.or_eq_some_iff.mp h with h | ⟨-, h⟩
  · obtain ⟨rfl, hkind, rfl⟩ := handedOn?_eq_some.mp h
    exact add_zero_of_kind hkind
  · obtain ⟨rfl, hkind, rfl⟩ := handedOn?_eq_some.mp h
    exact zero_add_of_kind hkind

theorem sub_eq_of_handedOn (h : handedOn? a b = some v) : a.sub b = v := by
  obtain ⟨rfl, hkind, rfl⟩ := handedOn?_eq_some.mp h
  exact sub_zero_of_kind hkind

end HandedOn

/-- The failure of an operation whose operands come to `x` and `y`: it names the first of them that
is no integer. -/
def mismatchOf (x y : Datum) : Failure :=
  .fault (.mismatch .int (if x.kind = .int then y else x))

section Mismatch

variable {a b : Lazy} {s s₁ s₂ : σ} {x y : Datum}

theorem run_resolveInt {v : Lazy} {u : σ} {d : Datum} (h : (v.eval look).run s = (.ok d, u)) :
    (v.resolveInt look).run s = (d.expectInt, u) := by
  unfold resolveInt
  rw [Attempt.run_bind_ok h, Attempt.run_liftM]

theorem expectInt_of_kind_ne {d : Datum} (h : d.kind ≠ .int) :
    d.expectInt = .error (.fault (.mismatch .int d)) := by
  cases d with
  | int n => exact absurd rfl h
  | _ => rfl

theorem expectInt_of_kind {d : Datum} (h : d.kind = .int) : ∃ n, d.expectInt = .ok n := by
  cases d with
  | int n => exact ⟨n, rfl⟩
  | _ => cases h

/-- What computes with the integers of its operands, the left one first, fails at the first that is
none. -/
theorem Integral.outcome_mismatch {v : Lazy} {f : Int64 → Int64 → Int64} (hv : v.Integral look)
    (hresolve : v.resolveInt look = (do
      let m ← a.resolveInt look
      let n ← b.resolveInt look
      pure (f m n)))
    (ha : (a.eval look).run s = (.ok x, s₁)) (hb : (b.eval look).run s₁ = (.ok y, s₂))
    (hkind : ¬ (x.kind = .int ∧ y.kind = .int)) :
    (v.eval look).outcome s = .error (mismatchOf x y) := by
  have hx := run_resolveInt look ha
  have hy := run_resolveInt look hb
  rw [hv, hresolve, mismatchOf, bind_assoc]
  by_cases hxint : x.kind = .int
  · have hyint : y.kind ≠ .int := fun h => hkind ⟨hxint, h⟩
    obtain ⟨n, hn⟩ := expectInt_of_kind hxint
    rw [hn] at hx
    rw [expectInt_of_kind_ne hyint] at hy
    rw [if_pos hxint, Attempt.outcome, Attempt.run_bind_ok hx, bind_assoc,
      Attempt.run_bind_error hy]
  · rw [expectInt_of_kind_ne hxint] at hx
    rw [if_neg hxint, Attempt.outcome, Attempt.run_bind_error hx]

/-- An operand that is handed on comes to a datum as it does on its own. -/
theorem outcome_handedOn {v : Lazy} (h : (handedOn? a b).or (handedOn? b a) = some v)
    (ha : (a.eval look).run s = (.ok x, s₁)) (hb : (b.eval look).run s₁ = (.ok y, s₂)) :
    ∃ d, (v.eval look).outcome s = .ok d := by
  rcases Option.or_eq_some_iff.mp h with h | ⟨-, h⟩
  · obtain ⟨-, -, rfl⟩ := handedOn?_eq_some.mp h
    exact ⟨x, Attempt.outcome_eq_of_run ha⟩
  · obtain ⟨rfl, -, rfl⟩ := handedOn?_eq_some.mp h
    -- the zero on the left is evaluated first and changes no state
    have hs : s₁ = s := (Prod.mk.inj ha).2.symm
    rw [hs] at hb
    exact ⟨y, Attempt.outcome_eq_of_run hb⟩

theorem outcome_add_mismatch_iff (ha : (a.eval look).run s = (.ok x, s₁))
    (hb : (b.eval look).run s₁ = (.ok y, s₂)) (hkind : ¬ (x.kind = .int ∧ y.kind = .int)) :
    ((a.add b).eval look).outcome s = .error (mismatchOf x y) ↔
      (handedOn? a b).or (handedOn? b a) = none := by
  constructor
  · intro herror
    cases h : (handedOn? a b).or (handedOn? b a) with
    | none => rfl
    | some v =>
      obtain ⟨d, hd⟩ := outcome_handedOn look h ha hb
      rw [add_eq_of_handedOn h, hd] at herror
      cases herror
  · intro h
    exact (integral_add look h).outcome_mismatch look (resolveInt_add look a b) ha hb hkind

theorem outcome_sub_mismatch_iff (ha : (a.eval look).run s = (.ok x, s₁))
    (hb : (b.eval look).run s₁ = (.ok y, s₂)) (hkind : ¬ (x.kind = .int ∧ y.kind = .int)) :
    ((a.sub b).eval look).outcome s = .error (mismatchOf x y) ↔ handedOn? a b = none := by
  constructor
  · intro herror
    cases h : handedOn? a b with
    | none => rfl
    | some v =>
      obtain ⟨-, -, rfl⟩ := handedOn?_eq_some.mp h
      rw [sub_eq_of_handedOn h, Attempt.outcome_eq_of_run ha] at herror
      cases herror
  · intro h
    exact (integral_sub look h).outcome_mismatch look (resolveInt_sub look a b) ha hb hkind

end Mismatch

section Sums

variable (a b : Lazy)

theorem comesTo_add_iff :
    (a.add b).ComesTo look .int ↔
      ∀ v, (handedOn? a b).or (handedOn? b a) = some v → v.ComesTo look .int := by
  cases h : (handedOn? a b).or (handedOn? b a) with
  | none => simp [(integral_add look h).comesTo]
  | some v => simp [add_eq_of_handedOn h]

theorem comesTo_addInt_iff (k : Int64) :
    (a.addInt k).ComesTo look .int ↔
      ∀ v, handedOn? a (int k) = some v → v.ComesTo look .int := by
  rw [addInt, comesTo_add_iff]
  constructor
  · intro h v hv
    exact h v (Option.or_eq_some_iff.mpr (.inl hv))
  · intro h v hv
    rcases Option.or_eq_some_iff.mp hv with hv | ⟨-, hv⟩
    · exact h v hv
    · obtain ⟨-, -, rfl⟩ := handedOn?_eq_some.mp hv
      exact (integral_int k).comesTo

theorem comesTo_sub_iff :
    (a.sub b).ComesTo look .int ↔ ∀ v, handedOn? a b = some v → v.ComesTo look .int := by
  cases h : handedOn? a b with
  | none => simp [(integral_sub look h).comesTo]
  | some v => simp [sub_eq_of_handedOn h]

/-- Whatever the symbols come to, products, quotients, remainders, negations and lengths are integers
and comparisons are booleans. A sum or a difference is an integer unless it hands on an operand that
breaks its promise, and operands that are not both integers are refused except where one is handed
on. -/
theorem arithmetic_kinds :
    ((∀ v ∈ [a.mul b, a.div b, a.mod b, a.neg, a.length], v.ComesTo look .int) ∧
      (a.equal b).ComesTo look .bool) ∧
    ((a.add b).ComesTo look .int ↔
      ∀ v, (handedOn? a b).or (handedOn? b a) = some v → v.ComesTo look .int) ∧
    (∀ k, (a.addInt k).ComesTo look .int ↔
      ∀ v, handedOn? a (int k) = some v → v.ComesTo look .int) ∧
    ((a.sub b).ComesTo look .int ↔ ∀ v, handedOn? a b = some v → v.ComesTo look .int) ∧
    ∀ s x s₁ y s₂, (a.resolve look .any).run s = (.ok x, s₁) →
      (b.resolve look .any).run s₁ = (.ok y, s₂) → ¬ (x.kind = .int ∧ y.kind = .int) →
        (mismatchOf x y).is .typeMismatch = true ∧
        ((a.mul b).resolve look .any).outcome s = .error (mismatchOf x y) ∧
        (((a.add b).resolve look .any).outcome s = .error (mismatchOf x y) ↔
          (handedOn? a b).or (handedOn? b a) = none) ∧
        (((a.sub b).resolve look .any).outcome s = .error (mismatchOf x y) ↔
          handedOn? a b = none) := by
  refine ⟨⟨?_, comesTo_binary look .equal a b⟩, comesTo_add_iff look a b,
    comesTo_addInt_iff look a, comesTo_sub_iff look a b, ?_⟩
  · simp only [List.forall_mem_cons, List.not_mem_nil, false_implies, implies_true, and_true]
    exact ⟨(integral_mul a b).comesTo, comesTo_binary look .div a b, comesTo_binary look .mod a b,
      (integral_neg a).comesTo, comesTo_length look a⟩
  · intro s x s₁ y s₂ ha hb hkind
    rw [resolve_any] at ha hb
    simp only [resolve_any]
    have hmul : ((a.mul b).eval look).outcome s = .error (mismatchOf x y) :=
      (integral_mul a b).outcome_mismatch look (resolveInt_mul look a b) ha hb hkind
    exact ⟨rfl, hmul, outcome_add_mismatch_iff look ha hb hkind,
      outcome_sub_mismatch_iff look ha hb hkind⟩

end Sums

section Lists

/-- A scope with a name that promises an integer and is a list. -/
def pairScope : Scope := Scope.empty.set "X" (list [1, 2])

theorem run_pair :
    ((symbol "X").resolve Scope.lookup .any).run pairScope = (.ok (.list [1, 2]), pairScope) := rfl

/-- One is added to an integer only. -/
theorem arithmetic_kinds_pair :
    ((symbol "X").add (int 1)).ComesTo Scope.lookup .int ∧
      (((symbol "X").add (int 1)).resolve Scope.lookup .any).outcome pairScope =
        .error (mismatchOf (.list [1, 2]) (.int 1)) := by
  have h := arithmetic_kinds Scope.lookup (symbol "X") (int 1)
  have hnone : (handedOn? (symbol "X") (int 1)).or (handedOn? (int 1) (symbol "X")) = none := rfl
  have hfail := h.2.2.2.2 pairScope (.list [1, 2]) pairScope (.int 1) pairScope run_pair rfl
    (by decide)
  constructor
  · apply h.2.1.mpr
    intro v hv
    rw [hnone] at hv
    cases hv
  · exact hfail.2.2.1.mpr hnone

/-- Zero is added to a list, and the sum that promises an integer is the list. -/
theorem pair_add_zero :
    ((symbol "X").add (int 0)).kind = .int ∧
      (((symbol "X").add (int 0)).resolve Scope.lookup .any).outcome pairScope =
        .ok (.list [1, 2]) ∧
      (((symbol "X").sub (int 0)).resolve Scope.lookup .any).outcome pairScope =
        .ok (.list [1, 2]) :=
  ⟨rfl, Attempt.outcome_eq_of_run run_pair, Attempt.outcome_eq_of_run run_pair⟩

end Lists

end Lazy

end Eleven

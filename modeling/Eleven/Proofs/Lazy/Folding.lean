import Eleven.Proofs.Lazy.Evaluation
import Mathlib.Tactic.SplitIfs

/-! Expressions as they are written, and the lazy values built for them. Building carries out at once
what it can, moves constants, merges offsets and drops zeros. The value still comes to what the
expression means, with the same look-ups in the same order and the same first failure. -/
namespace Eleven

/-- What a part of an expression stands for. -/
inductive Shape where
  | int
  | list
  | bool
  /-- What can be repeated: an integer or a list. -/
  | pattern

namespace Shape

abbrev Value : Shape → Type
  | .int => Int64
  | .list => List Int64
  | .bool => Bool
  | .pattern => Int64 ⊕ List Int64

def datum : (s : Shape) → s.Value → Datum
  | .int, n => .int n
  | .list, xs => .list xs
  | .bool, b => .bool b
  | .pattern, .inl n => .int n
  | .pattern, .inr xs => .list xs

/-- The kind by which results of the shape are checked. -/
def kind : Shape → Kind
  | .int => .int
  | .list => .list
  | .bool => .bool
  | .pattern => .any

end Shape

/-- Expressions whose parts have the shapes that their places ask for. -/
inductive Term : Shape → Type where
  | int (n : Int64) : Term .int
  | symbol (name : String) : Term .int
  | bytes (xs : List Int64) : Term .list
  | add (a b : Term .int) : Term .int
  | addInt (a : Term .int) (k : Int64) : Term .int
  | sub (a b : Term .int) : Term .int
  | mul (a b : Term .int) : Term .int
  | div (a b : Term .int) : Term .int
  | mod (a b : Term .int) : Term .int
  | neg (a : Term .int) : Term .int
  | length (a : Term .list) : Term .int
  | equal (a b : Term .int) : Term .bool
  /-- An integer where a pattern is asked for. -/
  | single (a : Term .int) : Term .pattern
  /-- A list where a pattern is asked for. -/
  | several (a : Term .list) : Term .pattern
  | repeated (count : Term .int) (elem : Term .pattern) : Term .list
  | select {s : Shape} (cond : Term .bool) (a b : Term s) : Term s

namespace Term

variable {σ : Type}

/-- The lazy value of an expression. -/
def build {s : Shape} : Term s → Lazy
  | .int n => .int n
  | .symbol name => .symbol name
  | .bytes xs => .list xs
  | .add a b => a.build.add b.build
  | .addInt a k => a.build.addInt k
  | .sub a b => a.build.sub b.build
  | .mul a b => a.build.mul b.build
  | .div a b => a.build.div b.build
  | .mod a b => a.build.mod b.build
  | .neg a => a.build.neg
  | .length a => a.build.length
  | .equal a b => a.build.equal b.build
  | .single a => a.build
  | .several a => a.build
  | .repeated count elem => .repeated count.build elem.build
  | .select cond a b => .select cond.build a.build b.build

/-- What an expression means where `look` gives the symbols. Operands come from left to right, and
only the chosen branch of a selection is looked at. Arithmetic is that of the integers, and its
results wrap at 64 bits: division goes toward zero, and a positive divisor leaves a remainder that
is not negative. -/
def meaning (look : String → Attempt σ Int64) {s : Shape} : Term s → Attempt σ s.Value
  | .int n => pure n
  | .symbol name => look name
  | .bytes xs => pure xs
  | .add a b => do
    let x ← a.meaning look
    let y ← b.meaning look
    pure (Int64.ofInt (x.toInt + y.toInt))
  | .addInt a k => do
    let x ← a.meaning look
    pure (Int64.ofInt (x.toInt + k.toInt))
  | .sub a b => do
    let x ← a.meaning look
    let y ← b.meaning look
    pure (Int64.ofInt (x.toInt - y.toInt))
  | .mul a b => do
    let x ← a.meaning look
    let y ← b.meaning look
    pure (Int64.ofInt (x.toInt * y.toInt))
  | .div a b => do
    let x ← a.meaning look
    let y ← b.meaning look
    if y.toInt = 0 then throw (.fault .divisionByZero)
    else pure (Int64.ofInt (x.toInt.tdiv y.toInt))
  | .mod a b => do
    let x ← a.meaning look
    let y ← b.meaning look
    if y.toInt = 0 then throw (.fault .divisionByZero)
    else if 0 < y.toInt then pure (Int64.ofInt (x.toInt % y.toInt))
    else pure (Int64.ofInt (x.toInt.tmod y.toInt))
  | .neg a => do
    let x ← a.meaning look
    pure (Int64.ofInt (-x.toInt))
  | .length a => do
    let xs ← a.meaning look
    pure (Int64.ofInt xs.length)
  | .equal a b => do
    let x ← a.meaning look
    let y ← b.meaning look
    pure (decide (x.toInt = y.toInt))
  | .single a => do
    let x ← a.meaning look
    pure (.inl x)
  | .several a => do
    let xs ← a.meaning look
    pure (.inr xs)
  | .repeated count elem => do
    let n ← count.meaning look
    if n.toInt < 0 then throw (.fault (.negativeCount n))
    else do
      let p ← elem.meaning look
      let xs := p.elim (fun x => [x]) id
      if n.toInt > maxRepeat ∨ n.toInt * xs.length > maxRepeat then
        throw (.fault (.countTooLarge n xs.length))
      else pure (List.replicate n.toInt.toNat xs).flatten
  | .select cond a b => do
    let c ← cond.meaning look
    if c then a.meaning look else b.meaning look

end Term

/-! Operations on 64 bits, as operations on integers whose results are cut down. -/
section Wrapping

theorem ofInt_toInt_tmod (x y : Int64) : Int64.ofInt (x.toInt.tmod y.toInt) = x % y := by
  rw [← Int64.toInt_mod, Int64.ofInt_toInt]

/-- The remainder that is never negative, from the one that has the sign of the dividend. -/
theorem emod_eq_of_pos (a : Int) {b : Int} (hb : 0 < b) :
    a % b = if a.tmod b < 0 then a.tmod b + b else a.tmod b := by
  have hnonneg : 0 ≤ a % b := Int.emod_nonneg a (by omega)
  have hlt : a % b < b := Int.emod_lt_of_pos a hb
  have habs : (b.natAbs : Int) = b := by omega
  rw [Int.tmod_eq_emod]
  by_cases h : 0 ≤ a ∨ b ∣ a
  · simp only [h, if_true]
    split_ifs <;> omega
  · simp only [h, if_false, habs]
    split_ifs <;> omega

theorem ofInt_toInt_emod {x y : Int64} (hy : 0 < y.toInt) :
    Int64.ofInt (x.toInt % y.toInt) = if x % y < 0 then x % y + y else x % y := by
  have hneg : x % y < 0 ↔ x.toInt.tmod y.toInt < 0 := by
    rw [Int64.lt_iff_toInt_lt, Int64.toInt_mod]
    rfl
  rw [emod_eq_of_pos _ hy]
  simp only [hneg]
  split_ifs
  · rw [Int64.ofInt_add, ofInt_toInt_tmod, Int64.ofInt_toInt]
  · exact ofInt_toInt_tmod x y

theorem toInt_eq_zero {y : Int64} : y.toInt = 0 ↔ y = 0 := by
  rw [← Int64.toInt_inj]
  rfl

theorem BinaryOp.apply_div (x y : Int64) :
    BinaryOp.div.apply x y =
      if y.toInt = 0 then .error (.fault .divisionByZero)
      else .ok (.int (.ofInt (x.toInt.tdiv y.toInt))) := by
  have hdiv : Int64.ofInt (x.toInt.tdiv y.toInt) = x / y := by
    rw [Int64.ofInt_eq_iff_bmod_eq_toInt, Int64.toInt_div]
  simp only [apply, toInt_eq_zero, hdiv]

theorem BinaryOp.apply_mod (x y : Int64) :
    BinaryOp.mod.apply x y =
      if y.toInt = 0 then .error (.fault .divisionByZero)
      else if 0 < y.toInt then .ok (.int (.ofInt (x.toInt % y.toInt)))
      else .ok (.int (.ofInt (x.toInt.tmod y.toInt))) := by
  have hpos : 0 < y ↔ 0 < y.toInt := Int64.lt_iff_toInt_lt
  simp only [apply, toInt_eq_zero, hpos]
  by_cases hy : 0 < y.toInt
  · simp only [hy, and_true, if_true, ofInt_toInt_emod hy]
    split_ifs <;> rfl
  · simp only [hy, and_false, if_false, ofInt_toInt_tmod]

/-- A test by division is a test of the product. Nothing is divided by the width of an empty
pattern, which fits any number of times. -/
theorem maxRepeat_div_lt_iff (k width : Nat) :
    (width > 0 ∧ k > maxRepeat / width) ↔ k * width > maxRepeat := by
  by_cases hwidth : width > 0
  · simp only [hwidth, true_and]
    exact Nat.div_lt_iff_lt_mul hwidth
  · have hzero : width = 0 := by omega
    simp [hzero]

/-- The bound on repetition is a bound on the number of elements and on the count. -/
theorem repeatPattern_eq {n : Int64} (hn : 0 ≤ n.toInt) (xs : List Int64) :
    repeatPattern n xs =
      if n.toInt > maxRepeat ∨ n.toInt * xs.length > maxRepeat then
        .error (.fault (.countTooLarge n xs.length))
      else .ok (.list (List.replicate n.toInt.toNat xs).flatten) := by
  obtain ⟨k, hk⟩ := Int.eq_ofNat_of_zero_le hn
  have hclamp : n.toNatClampNeg = k := by
    change n.toInt.toNat = k
    omega
  have hproduct : n.toInt * xs.length = ((k * xs.length : Nat) : Int) := by
    rw [hk, Int.natCast_mul]
  have hbound : (n.toInt > maxRepeat ∨ n.toInt * xs.length > maxRepeat) ↔
      (k > maxRepeat ∨ xs.length > 0 ∧ k > maxRepeat / xs.length) := by
    rw [hproduct, maxRepeat_div_lt_iff]
    omega
  unfold repeatPattern
  simp only [hclamp, hbound, Bool.or_eq_true, Bool.and_eq_true, decide_eq_true_eq]
  rw [hk]
  rfl

end Wrapping

namespace Lazy

variable {σ : Type} (look : String → Attempt σ Datum)

/-- The value comes to nothing but integers. -/
def Integral (v : Lazy) : Prop :=
  v.eval look = (do
    let n ← v.resolveInt look
    pure (.int n))

/-- The value keeps to the kind it promises. -/
def Honest (v : Lazy) : Prop := v.resolve look v.kind = v.eval look

variable {look}

section Integral

theorem integral_int (n : Int64) : (int n).Integral look := rfl

theorem integral_offset (base : Lazy) (k : Int64) : (offset base k).Integral look := by
  rw [Integral, eval_offset, resolveInt_offset]
  simp only [bind_assoc, pure_bind]

theorem integral_binary {op : BinaryOp} {f : Int64 → Int64 → Int64}
    (hop : ∀ x y, op.apply x y = .ok (.int (f x y))) (a b : Lazy) :
    (binary op a b).Integral look := by
  rw [Integral, eval_binary, resolveInt_binary look hop]
  simp only [bind_assoc, pure_bind, hop]
  rfl

theorem integral_addConst {v : Lazy} {k : Int64} (hk : ¬ (k = 0 ∧ v.kind = .int)) :
    (v.addConst k).Integral look := by
  unfold Lazy.addConst
  rw [if_neg hk]
  cases v with
  | offset base j => exact integral_offset base (j + k)
  | _ => exact integral_offset _ k

theorem addConst_eq_self {v : Lazy} {k : Int64} (hk : k = 0 ∧ v.kind = .int) : v.addConst k = v := by
  unfold Lazy.addConst
  exact if_pos hk

/-- A sum with zero is the value itself, so the value must be known to come to integers. -/
theorem Integral.addConst {v : Lazy} (h : v.Integral look) (k : Int64) :
    (v.addConst k).Integral look := by
  by_cases hk : k = 0 ∧ v.kind = .int
  · rw [addConst_eq_self hk]
    exact h
  · exact integral_addConst hk

theorem Integral.add {a b : Lazy} (ha : a.Integral look) (hb : b.Integral look) :
    (a.add b).Integral look := by
  unfold Lazy.add
  split
  · rfl
  · exact ha.addConst _
  · exact hb.addConst _
  · exact integral_binary (fun _ _ => rfl) a b

theorem Integral.sub {a b : Lazy} (ha : a.Integral look) : (a.sub b).Integral look := by
  unfold Lazy.sub
  split
  · exact ha.add (integral_int _)
  · exact integral_binary (fun _ _ => rfl) a b

theorem integral_mul (a b : Lazy) : (a.mul b).Integral look := by
  unfold mul
  split
  · rfl
  · exact integral_binary (fun _ _ => rfl) a b

theorem integral_neg (v : Lazy) : v.neg.Integral look := by
  unfold neg
  split
  · rfl
  · rw [Integral, eval_mapInt, resolveInt_mapInt]
    simp only [bind_assoc]

end Integral

section Kinds

theorem kind_addConst (v : Lazy) (k : Int64) : (v.addConst k).kind = .int := by
  unfold addConst
  by_cases hk : k = 0 ∧ v.kind = .int
  · rw [if_pos hk]
    exact hk.2
  · rw [if_neg hk]
    cases v <;> rfl

theorem kind_add (a b : Lazy) : (a.add b).kind = .int := by
  unfold add
  split
  · rfl
  · exact kind_addConst a _
  · exact kind_addConst b _
  · rfl

theorem kind_sub (a b : Lazy) : (a.sub b).kind = .int := by
  unfold sub
  split
  · exact kind_add a _
  · rfl

theorem kind_mul (a b : Lazy) : (a.mul b).kind = .int := by
  unfold mul
  split <;> rfl

theorem kind_neg (v : Lazy) : v.neg.kind = .int := by
  unfold neg
  split <;> rfl

theorem kind_length (v : Lazy) : v.length.kind = .int := by
  unfold length
  split <;> rfl

/-- Where every result is of the promised kind the check of the kind changes nothing. -/
theorem honest_of_eval {α : Type} {v : Lazy} {m : Attempt σ α} {g : α → Datum}
    (h : v.eval look = (do
      let x ← m
      pure (g x)))
    (hk : ∀ x, (g x).hasKind v.kind = true) : v.Honest look := by
  have hexpect : ∀ x, (g x).expect v.kind = .ok (g x) := fun x => if_pos (hk x)
  rw [Honest, resolve, h]
  simp only [bind_assoc, pure_bind, hexpect]
  rfl

/-- A selection promises what both of its branches promise, or nothing. -/
theorem Honest.select {cond a b : Lazy} (ha : a.Honest look) (hb : b.Honest look) :
    (Lazy.select cond a b).Honest look := by
  have heval : (Lazy.select cond a b).eval look = (do
      let c ← cond.resolveBool look
      if c then a.eval look else b.eval look) := by
    rw [eval_select, ha, hb]
  by_cases hk : b.kind = a.kind
  · have hkind : (Lazy.select cond a b).kind = a.kind := by simp only [kind, hk, if_true]
    rw [Honest, hkind, resolve, heval, bind_assoc]
    congr 1
    funext c
    cases c with
    | true => exact ha
    | false =>
      change b.resolve look a.kind = b.eval look
      rw [← hk]
      exact hb
  · have hkind : (Lazy.select cond a b).kind = .any := by simp only [kind, hk, if_false]
    rw [Honest, hkind]
    exact resolve_any look _

end Kinds

theorem resolveInt_div (look : String → Attempt σ Datum) (a b : Lazy) :
    (a.div b).resolveInt look = (do
      let x ← a.resolveInt look
      let y ← b.resolveInt look
      if y.toInt = 0 then throw (.fault .divisionByZero)
      else pure (Int64.ofInt (x.toInt.tdiv y.toInt))) := by
  rw [resolveInt, div, eval_binary]
  simp only [bind_assoc, BinaryOp.apply_div]
  congr 1
  funext x
  congr 1
  funext y
  split_ifs <;> rfl

end Lazy

namespace Term

variable {σ : Type}

/-- A context in which a symbol is an integer or cannot be had. -/
def integers (look : String → Attempt σ Int64) (name : String) : Attempt σ Datum := do
  let n ← look name
  pure (.int n)

/-- The value built for a term comes to what the term means, and keeps to the kind it promises. -/
structure Faithful (look : String → Attempt σ Int64) {s : Shape} (t : Term s) : Prop where
  eval : t.build.eval (integers look) = (do
    let x ← t.meaning look
    pure (s.datum x))
  honest : t.build.Honest (integers look)

section Faithful

variable {look : String → Attempt σ Int64}

theorem Faithful.resolveInt {t : Term .int} (h : t.Faithful look) :
    t.build.resolveInt (integers look) = t.meaning look := by
  rw [Lazy.resolveInt, h.eval, bind_assoc]
  exact bind_pure (t.meaning look)

theorem Faithful.resolveList {t : Term .list} (h : t.Faithful look) :
    t.build.resolveList (integers look) = t.meaning look := by
  rw [Lazy.resolveList, h.eval, bind_assoc]
  exact bind_pure (t.meaning look)

theorem Faithful.resolveBool {t : Term .bool} (h : t.Faithful look) :
    t.build.resolveBool (integers look) = t.meaning look := by
  rw [Lazy.resolveBool, h.eval, bind_assoc]
  exact bind_pure (t.meaning look)

theorem Faithful.integral {t : Term .int} (h : t.Faithful look) :
    t.build.Integral (integers look) := by
  rw [Lazy.Integral, h.resolveInt]
  exact h.eval

theorem faithful_of_eval {s : Shape} {t : Term s}
    (h : t.build.eval (integers look) = (do
      let x ← t.meaning look
      pure (s.datum x)))
    (hk : ∀ x, (s.datum x).hasKind t.build.kind = true) : t.Faithful look :=
  ⟨h, Lazy.honest_of_eval h hk⟩

theorem faithful_int {t : Term .int} (hint : t.build.Integral (integers look))
    (h : t.build.resolveInt (integers look) = t.meaning look) (hk : t.build.kind = .int) :
    t.Faithful look := by
  apply faithful_of_eval
  · rw [hint, h]
    rfl
  · intro x
    rw [hk]
    rfl

end Faithful

/-- One case for each way to build a value. -/
theorem faithful (look : String → Attempt σ Int64) {s : Shape} (t : Term s) :
    t.Faithful look := by
  induction t with
  | int n => exact ⟨rfl, rfl⟩
  | symbol name => exact faithful_of_eval rfl fun _ => rfl
  | bytes xs => exact ⟨rfl, rfl⟩
  | add a b ha hb =>
    apply faithful_int (ha.integral.add hb.integral)
    · rw [build, Lazy.resolveInt_add, ha.resolveInt, hb.resolveInt]
      simp only [meaning, Int64.ofInt_add, Int64.ofInt_toInt]
    · exact Lazy.kind_add a.build b.build
  | addInt a k ha =>
    apply faithful_int (ha.integral.add (Lazy.integral_int k))
    · rw [build, Lazy.addInt, Lazy.resolveInt_add, ha.resolveInt]
      simp only [meaning, Int64.ofInt_add, Int64.ofInt_toInt, Lazy.resolveInt_int, pure_bind]
    · exact Lazy.kind_add a.build _
  | sub a b ha hb =>
    apply faithful_int ha.integral.sub
    · rw [build, Lazy.resolveInt_sub, ha.resolveInt, hb.resolveInt]
      simp only [meaning, Int64.ofInt_sub, Int64.ofInt_toInt]
    · exact Lazy.kind_sub a.build b.build
  | mul a b ha hb =>
    apply faithful_int (Lazy.integral_mul a.build b.build)
    · rw [build, Lazy.resolveInt_mul, ha.resolveInt, hb.resolveInt]
      simp only [meaning, Int64.ofInt_mul, Int64.ofInt_toInt]
    · exact Lazy.kind_mul a.build b.build
  | div a b ha hb =>
    apply faithful_of_eval
    · rw [build, Lazy.div, Lazy.eval_binary, ha.resolveInt, hb.resolveInt]
      simp only [meaning, BinaryOp.apply_div, bind_assoc]
      congr 1
      funext x
      congr 1
      funext y
      split_ifs <;> rfl
    · exact fun _ => rfl
  | mod a b ha hb =>
    apply faithful_of_eval
    · rw [build, Lazy.mod, Lazy.eval_binary, ha.resolveInt, hb.resolveInt]
      simp only [meaning, BinaryOp.apply_mod, bind_assoc]
      congr 1
      funext x
      congr 1
      funext y
      split_ifs <;> rfl
    · exact fun _ => rfl
  | neg a ha =>
    apply faithful_int (Lazy.integral_neg a.build)
    · rw [build, Lazy.resolveInt_neg, ha.resolveInt]
      simp only [meaning, Int64.ofInt_neg, Int64.ofInt_toInt]
    · exact Lazy.kind_neg a.build
  | length a ha =>
    apply faithful_of_eval
    · rw [build, Lazy.eval_length, ha.resolveList]
      simp only [meaning, bind_assoc, pure_bind]
      rfl
    · intro n
      rw [build, Lazy.kind_length]
      rfl
  | equal a b ha hb =>
    apply faithful_of_eval
    · rw [build, Lazy.equal, Lazy.eval_binary, ha.resolveInt, hb.resolveInt]
      simp only [meaning, bind_assoc, pure_bind, BinaryOp.apply, Int64.toInt_inj]
      rfl
    · exact fun _ => rfl
  | single a ha =>
    constructor
    · rw [build, ha.eval]
      simp only [meaning, bind_assoc, pure_bind]
      rfl
    · exact ha.honest
  | several a ha =>
    constructor
    · rw [build, ha.eval]
      simp only [meaning, bind_assoc, pure_bind]
      rfl
    · exact ha.honest
  | repeated count elem hc he =>
    apply faithful_of_eval
    · rw [build, Lazy.eval_repeated, hc.resolveInt, he.eval]
      simp only [meaning, bind_assoc, pure_bind]
      congr 1
      funext n
      have hneg : n < 0 ↔ n.toInt < 0 := Int64.lt_iff_toInt_lt
      by_cases hn : n.toInt < 0
      · simp only [hneg, hn, if_true]
        rfl
      · simp only [hneg, hn, if_false, bind_assoc]
        congr 1
        funext p
        have hpattern : (Shape.pattern.datum p).pattern = .ok (p.elim (fun x => [x]) id) := by
          cases p <;> rfl
        rw [hpattern, Attempt.liftM_ok, pure_bind, repeatPattern_eq (by omega)]
        split_ifs <;> rfl
    · exact fun _ => rfl
  | select cond a b hc ha hb =>
    constructor
    · rw [build, Lazy.eval_select, hc.resolveBool, ha.honest, hb.honest, ha.eval, hb.eval]
      simp only [meaning, bind_assoc]
      congr 1
      funext c
      cases c <;> rfl
    · exact ha.honest.select hb.honest

/-- Resolving the value built for an expression is evaluating the expression as it is written, in every
context of integers: look-ups, their order, the result and the first failure are the same. The check
of the result against its own kind, or against none, refuses nothing. -/
theorem resolve_build (look : String → Attempt σ Int64) {s : Shape} (t : Term s) :
    t.build.resolve (integers look) .any = (do
        let x ← t.meaning look
        pure (s.datum x)) ∧
      t.build.resolve (integers look) s.kind = (do
        let x ← t.meaning look
        pure (s.datum x)) := by
  have heval := (t.faithful look).eval
  have hkind : ∀ x, (s.datum x).expect s.kind = .ok (s.datum x) := by
    intro x
    cases s <;> rfl
  constructor
  · rw [Lazy.resolve_any, heval]
  · rw [Lazy.resolve, heval]
    simp only [bind_assoc, pure_bind, hkind]
    rfl

example : build (.sub (.add (.int 5) (.addInt (.symbol "A") 2)) (.int 4)) =
    .offset (.symbol "A") 3 := rfl

end Term

end Eleven

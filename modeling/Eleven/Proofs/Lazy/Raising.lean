import Eleven.Proofs.Failure.Raising
import Eleven.Proofs.Lazy.Memo

/-! Where the failures of an evaluation come from: they are faults, or what the steps of values
raise. -/
namespace Eleven

namespace Lazy

/-- Every failure that a step of the value raises satisfies `P`. -/
def StepsRaise (P : Failure → Prop) : Lazy → Prop
  | .blank => True
  | .literal _ => True
  | .symbol _ => True
  | .offset base _ => base.StepsRaise P
  | .binary _ a b => a.StepsRaise P ∧ b.StepsRaise P
  | .repeated count elem => count.StepsRaise P ∧ elem.StepsRaise P
  | .select cond a b => cond.StepsRaise P ∧ a.StepsRaise P ∧ b.StepsRaise P
  | .step v f _ => v.StepsRaise P ∧ ∀ d, Ensures (fun _ => True) P (f d)

theorem StepsRaise.mono {P P' : Failure → Prop} (hP : ∀ e, P e → P' e) {v : Lazy}
    (h : v.StepsRaise P) : v.StepsRaise P' := by
  induction v with
  | blank => trivial
  | literal d => trivial
  | symbol name => trivial
  | offset base k ih => exact ih h
  | binary op a b iha ihb => exact ⟨iha h.1, ihb h.2⟩
  | repeated count elem ihc ihe => exact ⟨ihc h.1, ihe h.2⟩
  | select cond a b ihc iha ihb => exact ⟨ihc h.1, iha h.2.1, ihb h.2.2⟩
  | step v f k ih => exact ⟨ih h.1, fun d => (h.2 d).imp (fun _ h => h) hP⟩

/-- The names that a value mentions, whether or not its evaluation comes to them. -/
def names : Lazy → List String
  | .blank => []
  | .literal _ => []
  | .symbol name => [name]
  | .offset base _ => base.names
  | .binary _ a b => a.names ++ b.names
  | .repeated count elem => count.names ++ elem.names
  | .select cond a b => cond.names ++ (a.names ++ b.names)
  | .step v _ _ => v.names

/-- A fault that is no circular reference. What is done with data raises no others. -/
def OperationFault (e : Failure) : Prop :=
  ∃ f : Fault, e = .fault f ∧ f.category ≠ some .circularReference

theorem of_operationFault {P : Failure → Prop} (hP : ∀ f, P (.fault f)) :
    ∀ e, OperationFault e → P e := by
  intro e he
  obtain ⟨f, rfl, -⟩ := he
  exact hP f

section Faults

theorem operationFault_mismatch (k : Kind) (d : Datum) :
    OperationFault (.fault (.mismatch k d)) := ⟨_, rfl, by simp [Fault.category]⟩

variable {P : Failure → Prop} (hP : ∀ e, OperationFault e → P e)
include hP

theorem ensures_expectInt (d : Datum) : Ensures (fun _ => True) P d.expectInt := by
  cases d with
  | int n => trivial
  | _ => exact hP _ (operationFault_mismatch _ _)

theorem ensures_expectList (d : Datum) : Ensures (fun _ => True) P d.expectList := by
  cases d with
  | list xs => trivial
  | _ => exact hP _ (operationFault_mismatch _ _)

theorem ensures_expectBool (d : Datum) : Ensures (fun _ => True) P d.expectBool := by
  cases d with
  | bool b => trivial
  | _ => exact hP _ (operationFault_mismatch _ _)

theorem ensures_pattern (d : Datum) : Ensures (fun _ => True) P d.pattern := by
  cases d with
  | int n => trivial
  | list xs => trivial
  | _ => exact hP _ (operationFault_mismatch _ _)

theorem ensures_expect (k : Kind) (d : Datum) : Ensures (fun _ => True) P (d.expect k) := by
  unfold Datum.expect
  split
  · trivial
  · exact hP _ (operationFault_mismatch _ _)

theorem ensures_repeatPattern (n : Int64) (p : List Int64) :
    Ensures (fun _ => True) P (repeatPattern n p) := by
  unfold repeatPattern
  dsimp only
  split
  · exact hP _ ⟨_, rfl, by simp [Fault.category]⟩
  · trivial

theorem ensures_binary (op : BinaryOp) (x y : Int64) :
    Ensures (fun _ => True) P (op.apply x y) := by
  have hzero : P (.fault .divisionByZero) := hP _ ⟨_, rfl, by simp [Fault.category]⟩
  unfold BinaryOp.apply
  split
  · trivial
  · trivial
  · trivial
  · split
    · exact hzero
    · trivial
  · split
    · exact hzero
    · split <;> trivial
  · trivial

/-- An evaluation raises what steps and the look-ups of the names that it comes to raise, and faults
of operations. -/
theorem StepsRaise.raises_eval_of_names {σ : Type} {I : σ → Prop}
    {look : String → Attempt σ Datum} {v : Lazy} (h : v.StepsRaise P)
    (hlook : ∀ name ∈ v.names, Raises I P (look name)) : Raises I P (v.eval look) := by
  induction v with
  | blank => exact raises_throw (hP _ ⟨_, rfl, by simp [Fault.category]⟩)
  | literal d => exact raises_pure d
  | symbol name => exact hlook name (by simp [names])
  | offset base k ih =>
    apply (ih h hlook).bind
    intro d
    apply (raises_lift (ensures_expectInt hP d)).bind
    intro n
    exact raises_pure _
  | binary op a b iha ihb =>
    rw [names, List.forall_mem_append] at hlook
    apply (iha h.1 hlook.1).bind
    intro dx
    apply (raises_lift (ensures_expectInt hP dx)).bind
    intro x
    apply (ihb h.2 hlook.2).bind
    intro dy
    apply (raises_lift (ensures_expectInt hP dy)).bind
    intro y
    exact raises_lift (ensures_binary hP op x y)
  | repeated count elem ihc ihe =>
    rw [names, List.forall_mem_append] at hlook
    have hpattern : ∀ n, Raises I P (do
        let d ← elem.eval look
        let p ← d.pattern
        liftM (repeatPattern n p) : Attempt σ Datum) := by
      intro n
      apply (ihe h.2 hlook.2).bind
      intro d
      apply (raises_lift (ensures_pattern hP d)).bind
      intro p
      exact raises_lift (ensures_repeatPattern hP n p)
    apply (ihc h.1 hlook.1).bind
    intro dn
    apply (raises_lift (ensures_expectInt hP dn)).bind
    intro n
    by_cases hn : n < 0
    · have hnegative : P (.fault (.negativeCount n)) := hP _ ⟨_, rfl, by simp [Fault.category]⟩
      simp only [hn, if_true]
      exact (raises_throw hnegative).bind fun _ => hpattern n
    · simp only [hn, if_false]
      exact hpattern n
  | select cond a b ihc iha ihb =>
    rw [names, List.forall_mem_append, List.forall_mem_append] at hlook
    apply (ihc h.1 hlook.1).bind
    intro dc
    apply (raises_lift (ensures_expectBool hP dc)).bind
    intro c
    cases c with
    | false =>
      exact (ihb h.2.2 hlook.2.2).bind fun d => raises_lift (ensures_expect hP b.kind d)
    | true =>
      exact (iha h.2.1 hlook.2.1).bind fun d => raises_lift (ensures_expect hP a.kind d)
  | step v f k ih => exact (ih h.1 hlook).bind fun d => raises_lift (h.2 d)

end Faults

section Evaluating

variable {P : Failure → Prop} (hP : ∀ f, P (.fault f)) {σ : Type} {I : σ → Prop}
  {look : String → Attempt σ Datum} (hlook : ∀ name, Raises I P (look name)) {v : Lazy}
  (h : v.StepsRaise P)
include hP hlook h

/-- An evaluation raises what look-ups and steps raise, and faults. -/
theorem StepsRaise.raises_eval : Raises I P (v.eval look) :=
  h.raises_eval_of_names (of_operationFault hP) fun name _ => hlook name

theorem StepsRaise.raises_resolveInt : Raises I P (v.resolveInt look) :=
  (h.raises_eval hP hlook).bind fun d =>
    raises_lift (ensures_expectInt (of_operationFault hP) d)

end Evaluating

section Building

variable {P : Failure → Prop} {a b : Lazy}

theorem stepsRaise_int (n : Int64) : (int n).StepsRaise P := trivial

theorem StepsRaise.addConst (h : a.StepsRaise P) (k : Int64) : (a.addConst k).StepsRaise P := by
  unfold Lazy.addConst
  split
  · exact h
  · cases a <;> exact h

theorem StepsRaise.add (ha : a.StepsRaise P) (hb : b.StepsRaise P) : (a.add b).StepsRaise P := by
  unfold Lazy.add
  split
  · trivial
  · exact ha.addConst _
  · exact hb.addConst _
  · exact ⟨ha, hb⟩

theorem StepsRaise.addInt (h : a.StepsRaise P) (k : Int64) : (a.addInt k).StepsRaise P :=
  h.add (stepsRaise_int k)

theorem StepsRaise.sub (ha : a.StepsRaise P) (hb : b.StepsRaise P) : (a.sub b).StepsRaise P := by
  unfold Lazy.sub
  split
  · exact ha.add (stepsRaise_int _)
  · exact ⟨ha, hb⟩

theorem StepsRaise.mul (ha : a.StepsRaise P) (hb : b.StepsRaise P) : (a.mul b).StepsRaise P := by
  unfold Lazy.mul
  split
  · trivial
  · exact ⟨ha, hb⟩

variable (hP : ∀ f, P (.fault f))
include hP

theorem StepsRaise.mapInt (h : a.StepsRaise P) {f : Int64 → Except Failure Int64}
    (hf : ∀ n, Ensures (fun _ => True) P (f n)) : (a.mapInt f).StepsRaise P := by
  refine ⟨h, fun d => ?_⟩
  apply (ensures_expectInt (of_operationFault hP) d).bind
  intro n _
  exact (hf n).bind fun m _ => trivial

theorem StepsRaise.neg (h : a.StepsRaise P) : a.neg.StepsRaise P := by
  unfold Lazy.neg
  split
  · trivial
  · exact h.mapInt hP fun n => trivial

theorem StepsRaise.length (h : a.StepsRaise P) : a.length.StepsRaise P := by
  unfold Lazy.length
  split
  · trivial
  · exact ⟨h, fun d =>
      (ensures_expectList (of_operationFault hP) d).bind fun xs _ => trivial⟩

end Building

end Lazy

namespace SymbolTable

/-- Every definition of a table satisfies `Q`. -/
def Holds (Q : Symbol → Prop) (t : SymbolTable) : Prop := ∀ y ∈ t.definitions, Q y

theorem Holds.of_definitions {Q : Symbol → Prop} {t t' : SymbolTable} (h : t.Holds Q)
    (hd : t'.definitions = t.definitions) : t'.Holds Q := by
  unfold Holds
  rw [hd]
  exact h

theorem Holds.define {Q : Symbol → Prop} {P : Failure → Prop} {t : SymbolTable} (h : t.Holds Q)
    {name : String} {v : Lazy} {pos : Position} (hnew : Q ⟨name, v, pos, .pending⟩)
    (hP : P ((Problem.redefinition name).failure pos)) :
    Ensures (Holds Q) P (t.define name v pos) := by
  unfold SymbolTable.define
  split
  · exact hP
  · intro y hy
    have hpush : (t.push ⟨name, v, pos, .pending⟩).definitions =
        t.definitions ++ [⟨name, v, pos, .pending⟩] := List.map_append
    rw [hpush] at hy
    rcases List.mem_append.mp hy with hold | hlast
    · exact h y hold
    · rw [List.mem_singleton.mp hlast]
      exact hnew

section Raising

variable {Q : Symbol → Prop} {P : Failure → Prop} (hP : ∀ f, P (.fault f))
  (hQ : ∀ y, Q y → y.value.StepsRaise P)
include hP hQ

theorem raises_lookupWithin (depth : Nat) (name : String) :
    Raises (Holds Q) P (lookupWithin depth name) := by
  induction depth generalizing name with
  | zero => exact raises_throw (hP _)
  | succ depth ih =>
    intro t ht
    rw [lookupWithin, Attempt.run_bind_ok (Attempt.run_get t)]
    cases hf : t.find? name with
    | none => exact ⟨ht, hP _⟩
    | some y =>
      cases hp : y.progress with
      | resolved d =>
        simp only [hp]
        exact ⟨ht, trivial⟩
      | resolving =>
        simp only [hp]
        exact ⟨ht, hP _⟩
      | pending =>
        simp only [hp]
        have hy : Q y.fresh := ht _ (List.mem_map_of_mem (List.mem_of_find?_eq_some hf))
        have hvalue : y.value.StepsRaise P := hQ y.fresh hy
        have hmark : (t.mark name .resolving).Holds Q :=
          ht.of_definitions (definitions_mark t name .resolving)
        obtain ⟨hu, hr⟩ := hvalue.raises_eval hP ih (t.mark name .resolving) hmark
        exact ⟨hu.of_definitions (definitions_mark _ name _), hr⟩

theorem raises_lookup (name : String) : Raises (Holds Q) P (lookup name) := by
  intro t ht
  rw [lookup, Attempt.run_bind_ok (Attempt.run_get t)]
  exact raises_lookupWithin hP hQ (t.size + 1) name t ht

/-- A failed resolution names the place of a definition, or the place that it already has. -/
theorem raises_resolveSymbol {P' : Failure → Prop} {y : Symbol}
    (hy : ∀ e, P e → P' ((Failure.within ("symbol " ++ y.name) e).annotate y.position)) :
    Raises (Holds Q) P' (resolveSymbol y) := by
  have hsymbol : (Lazy.symbol y.name).StepsRaise P := trivial
  exact (hsymbol.raises_resolveInt hP (raises_lookup hP hQ)).mapFailure hy

theorem raises_resolveAll {P' : Failure → Prop}
    (hplace : ∀ y, Q y →
      ∀ e, P e → P' ((Failure.within ("symbol " ++ y.name) e).annotate y.position)) :
    Raises (Holds Q) P' resolveAll := by
  have heach : ∀ ys : List Symbol, (∀ y ∈ ys, Q y.fresh) →
      Raises (Holds Q) P' (resolveEach ys) := by
    intro ys hys
    induction ys with
    | nil => exact raises_pure ()
    | cons y ys ih =>
      have hy := hplace y.fresh (hys y (by simp))
      apply (raises_resolveSymbol hP hQ hy).bind
      intro _
      exact ih fun z hz => hys z (List.mem_cons_of_mem y hz)
  intro t ht
  rw [resolveAll, Attempt.run_bind_ok (Attempt.run_get t)]
  exact heach t.symbols (fun y hy => ht _ (List.mem_map_of_mem hy)) t ht

end Raising

end SymbolTable

end Eleven

import Eleven.Proofs.Lazy.Arithmetic
import Eleven.Proofs.Lazy.Calls
import Eleven.Proofs.Lazy.Nesting
import Eleven.Proofs.Lazy.Raising
import Mathlib.Logic.Relation

/-! The names that values mention, as a graph, and what it says about look-ups: a circular reference
is reported only where the graph has a cycle, and a name is found only where everything behind it
is bound and nothing leads back, unless a selection leaves some of it out. -/
namespace Eleven

namespace Lazy

/-- A step of the value answers some datum with the failure. -/
def StepFails (e : Failure) : Lazy → Prop
  | .blank => False
  | .literal _ => False
  | .symbol _ => False
  | .offset base _ => base.StepFails e
  | .binary _ a b => a.StepFails e ∨ b.StepFails e
  | .repeated count elem => count.StepFails e ∨ elem.StepFails e
  | .select cond a b => cond.StepFails e ∨ a.StepFails e ∨ b.StepFails e
  | .step v f _ => v.StepFails e ∨ ∃ d, f d = .error e

/-- The value does not select between others. -/
def Unconditional : Lazy → Prop
  | .blank => True
  | .literal _ => True
  | .symbol _ => True
  | .offset base _ => base.Unconditional
  | .binary _ a b => a.Unconditional ∧ b.Unconditional
  | .repeated count elem => count.Unconditional ∧ elem.Unconditional
  | .select _ _ _ => False
  | .step v _ _ => v.Unconditional

theorem stepsRaise_of_stepFails {P : Failure → Prop} {v : Lazy} (h : ∀ e, v.StepFails e → P e) :
    v.StepsRaise P := by
  induction v with
  | blank => trivial
  | literal d => trivial
  | symbol name => trivial
  | offset base k ih => exact ih h
  | binary op a b iha ihb =>
    exact ⟨iha fun e he => h e (.inl he), ihb fun e he => h e (.inr he)⟩
  | repeated count elem ihc ihe =>
    exact ⟨ihc fun e he => h e (.inl he), ihe fun e he => h e (.inr he)⟩
  | select cond a b ihc iha ihb =>
    exact ⟨ihc fun e he => h e (.inl he), iha fun e he => h e (.inr (.inl he)),
      ihb fun e he => h e (.inr (.inr he))⟩
  | step v f k ih =>
    constructor
    · exact ih fun e he => h e (.inl he)
    · intro d
      cases hd : f d with
      | ok x => trivial
      | error e => exact h e (.inr ⟨d, hd⟩)

/-- A value fails with a fault of its own operations, with what one of its steps raises, or with the
failure of a name that it mentions. -/
theorem ensures_value {P : Failure → Prop} (hP : ∀ e, OperationFault e → P e) {env : Env} {v : Lazy}
    (hsteps : v.StepsRaise P) (hnames : ∀ n ∈ v.names, Ensures (fun _ => True) P (env n)) :
    Ensures (fun _ => True) P (v.value env) := by
  have hlook : ∀ n ∈ v.names, Raises (fun s => s = env) P (Env.look n) := by
    intro n hn s hs
    subst hs
    exact ⟨rfl, hnames n hn⟩
  exact (hsteps.raises_eval_of_names hP hlook env rfl).2

/-- Without selections every name that a value mentions has been found once the value is known. -/
theorem names_found {env : Env} {v : Lazy} (hv : v.Unconditional) {d : Datum}
    (h : v.value env = .ok d) : ∀ n ∈ v.names, ∃ x, env n = .ok x := by
  have hint : ∀ {w : Lazy} {k : Int64}, w.intValue env = .ok k → ∃ x, w.value env = .ok x := by
    intro w k hk
    obtain ⟨x, hx, -⟩ := bind_eq_ok.mp hk
    exact ⟨x, hx⟩
  induction v generalizing d with
  | blank => simp [names]
  | literal d => simp [names]
  | symbol name => simpa [names] using ⟨d, h⟩
  | offset base k ih =>
    rw [value_offset] at h
    obtain ⟨n, hn, -⟩ := bind_eq_ok.mp h
    obtain ⟨x, hx⟩ := hint hn
    exact ih hv hx
  | binary op a b iha ihb =>
    rw [value_binary] at h
    obtain ⟨n, hn, h⟩ := bind_eq_ok.mp h
    obtain ⟨m, hm, -⟩ := bind_eq_ok.mp h
    obtain ⟨x, hx⟩ := hint hn
    obtain ⟨y, hy⟩ := hint hm
    rw [names, List.forall_mem_append]
    exact ⟨iha hv.1 hx, ihb hv.2 hy⟩
  | repeated count elem ihc ihe =>
    rw [value_repeated] at h
    obtain ⟨n, hn, h⟩ := bind_eq_ok.mp h
    obtain ⟨x, hx⟩ := hint hn
    split at h
    · cases h
    · obtain ⟨y, hy, -⟩ := bind_eq_ok.mp h
      rw [names, List.forall_mem_append]
      exact ⟨ihc hv.1 hx, ihe hv.2 hy⟩
  | select cond a b _ _ _ => exact hv.elim
  | step v f k ih =>
    rw [value_step] at h
    obtain ⟨x, hx, -⟩ := bind_eq_ok.mp h
    exact ih hv hx

end Lazy

/-- What names are bound to. -/
abbrev Bindings := String → Option Lazy

namespace Bindings

/-- The value of a name mentions another name. -/
def Refers (b : Bindings) (n m : String) : Prop := ∃ v, b n = some v ∧ m ∈ v.names

/-- References lead from one name to another, or the two are the same. -/
def Reaches (b : Bindings) : String → String → Prop := Relation.ReflTransGen b.Refers

/-- References lead from a name back to it. -/
def OnCycle (b : Bindings) (n : String) : Prop := Relation.TransGen b.Refers n n

/-- How the references behind a name account for a failure of its look-up: a circular reference is
that of a symbol on a cycle, if it was not raised by a step of a value, which may raise anything. -/
def Explains (b : Bindings) (name : String) (e : Failure) : Prop :=
  e.is .circularReference = true →
    (∃ m, e = .fault (.circularReference m) ∧ b.Reaches name m ∧ b.OnCycle m) ∨
      ∃ m v, b.Reaches name m ∧ b m = some v ∧ v.StepFails e

/-- What a look-up of a name comes to is borne out by the references behind the name: a failure is
explained, and a datum to which no selection led means that every name behind is bound and on no
cycle. -/
structure BearsOut (b : Bindings) (name : String) (r : Except Failure Datum) : Prop where
  explains : ∀ e, r = .error e → b.Explains name e
  acyclic : ∀ d, r = .ok d → (∀ m v, b.Reaches name m → b m = some v → v.Unconditional) →
    ∀ m, b.Reaches name m → (∃ v, b m = some v) ∧ ¬ b.OnCycle m

variable {b : Bindings} {name n : String} {e : Failure}

theorem explains_of_operationFault (h : Lazy.OperationFault e) : b.Explains name e := by
  intro he
  obtain ⟨f, rfl, hf⟩ := h
  exact absurd (beq_iff_eq.mp he) hf

theorem Explains.of_refers (h : b.Explains n e) (hn : b.Refers name n) : b.Explains name e := by
  intro he
  rcases h he with ⟨m, hm, hreach, hcycle⟩ | ⟨m, v, hreach, hv, hfails⟩
  · exact .inl ⟨m, hm, .head hn hreach, hcycle⟩
  · exact .inr ⟨m, v, .head hn hreach, hv, hfails⟩

end Bindings

namespace Scope

open Bindings (Refers Reaches OnCycle Explains BearsOut)

variable {s : Scope} {name : String}

/-- The names under evaluation lead to the one that is looked up. That holds for the nested look-ups
too, so a name that is met again is on a cycle. -/
theorem explains_env {depth : Nat} (hs : s.unvisited < depth)
    (hactive : ∀ a ∈ s.active, Relation.TransGen (Refers s.binding?) a name) :
    Ensures (fun _ => True) (Explains s.binding? name) (s.env depth name) := by
  induction depth generalizing s name with
  | zero => omega
  | succ depth ih =>
    rw [env_succ]
    cases hb : s.binding? name with
    | none =>
      intro he
      cases he
    | some v =>
      by_cases hact : name ∈ s.active
      · -- the name is met again, and `hactive` leads from it to itself
        simp only [hact, if_true]
        intro _
        exact .inl ⟨name, rfl, .refl, hactive name hact⟩
      · simp only [hact, if_false]
        have hless := unvisited_enter_lt hb hact
        apply Lazy.ensures_value
        · exact fun e he => Bindings.explains_of_operationFault he
        · apply Lazy.stepsRaise_of_stepFails
          intro e hfails _
          exact .inr ⟨name, v, .refl, hb, hfails⟩
        · intro n hn
          have hrefers : Refers s.binding? name n := ⟨v, hb, hn⟩
          have hpath : ∀ a ∈ (s.enter name).active,
              Relation.TransGen (Refers s.binding?) a n := by
            rw [enter, List.forall_mem_cons]
            exact ⟨.single hrefers, fun a ha => .tail (hactive a ha) hrefers⟩
          have hinner := ih (s := s.enter name) (by omega) hpath
          exact hinner.imp (fun _ h => h) fun e he => he.of_refers hrefers

section Found

variable {depth : Nat} {d : Datum}

/-- A name that is found is bound and was not being evaluated, and its value is known. -/
theorem env_eq_ok (h : s.env depth name = .ok d) :
    ∃ v k, s.binding? name = some v ∧ name ∉ s.active ∧
      v.value ((s.enter name).env k) = .ok d := by
  cases depth with
  | zero => cases h
  | succ k =>
    rw [env_succ] at h
    cases hb : s.binding? name with
    | none =>
      rw [hb] at h
      cases h
    | some v =>
      rw [hb] at h
      by_cases hact : name ∈ s.active
      · simp only [hact, if_true] at h
        cases h
      · simp only [hact, if_false] at h
        exact ⟨v, k, rfl, hact, h⟩

/-- Where a name is found, so is every name that its value mentions, with that name entered. -/
theorem found_of_refers {n : String} (h : s.env depth name = .ok d)
    (hn : Refers s.binding? name n)
    (hplain : ∀ v, s.binding? name = some v → v.Unconditional) :
    ∃ k x, (s.enter name).env k n = .ok x := by
  obtain ⟨v, k, hv, -, hvalue⟩ := env_eq_ok h
  obtain ⟨w, hw, hmem⟩ := hn
  have hwv : w = v := Option.some.inj (hw.symm.trans hv)
  subst hwv
  obtain ⟨x, hx⟩ := Lazy.names_found (hplain w hw) hvalue n hmem
  exact ⟨k, x, hx⟩

/-- Every name behind one that is found is found too, where the names under evaluation are still
under evaluation. -/
theorem found_of_reaches {m : String} (h : s.env depth name = .ok d)
    (hreach : Reaches s.binding? name m)
    (hplain : ∀ n v, Reaches s.binding? name n → s.binding? n = some v → v.Unconditional) :
    ∃ (u : Scope) (k : Nat) (x : Datum),
      u.binding? = s.binding? ∧ (∀ a ∈ s.active, a ∈ u.active) ∧ u.env k m = .ok x := by
  induction hreach with
  | refl => exact ⟨s, depth, d, rfl, fun _ ha => ha, h⟩
  | @tail n m hreach hrefers ih =>
    obtain ⟨u, k, x, hbinding, hactive, hfound⟩ := ih
    rw [← hbinding] at hrefers
    obtain ⟨k', y, hy⟩ := found_of_refers hfound hrefers fun v hv =>
      hplain n v hreach (hbinding ▸ hv)
    exact ⟨u.enter n, k', y, hbinding, fun a ha => List.mem_cons_of_mem n (hactive a ha), hy⟩

/-- A name behind one that is found does not lead back to itself: while its value was being
evaluated it would have been found once more. -/
theorem not_onCycle_of_found {m : String} (h : s.env depth name = .ok d)
    (hreach : Reaches s.binding? name m)
    (hplain : ∀ n v, Reaches s.binding? name n → s.binding? n = some v → v.Unconditional) :
    ¬ OnCycle s.binding? m := by
  intro hcycle
  obtain ⟨u, k, x, hbinding, -, hfound⟩ := found_of_reaches h hreach hplain
  obtain ⟨n, hrefers, hback⟩ := Relation.TransGen.head'_iff.mp hcycle
  rw [← hbinding] at hrefers hback
  obtain ⟨k', y, hy⟩ := found_of_refers hfound hrefers fun v hv =>
    hplain m v hreach (hbinding ▸ hv)
  have hplain' : ∀ n' v, Reaches (u.enter m).binding? n n' →
      (u.enter m).binding? n' = some v → v.Unconditional := by
    intro n' v hn' hv
    have hbehind : Reaches u.binding? m n' := .head hrefers hn'
    rw [hbinding] at hbehind
    exact hplain n' v (hreach.trans hbehind) (hbinding ▸ hv)
  obtain ⟨w, k'', z, -, hactive, hagain⟩ := found_of_reaches hy hback hplain'
  obtain ⟨-, -, -, hfree, -⟩ := env_eq_ok hagain
  exact hfree (hactive m (by simp [enter]))

end Found

/-- A look-up in a scope where nothing is being evaluated. -/
theorem bearsOut_lookup (s : Scope) (hs : s.active = []) (name : String) :
    BearsOut s.binding? name ((lookup name).outcome s) := by
  rw [outcome_lookup]
  constructor
  · intro e he
    have hroom : s.unvisited < s.bindings.length + 1 := Nat.lt_succ_of_le s.unvisited_le
    exact (explains_env hroom (by simp [hs])).of_eq_error he
  · intro d hd hplain m hm
    constructor
    · obtain ⟨u, k, x, hbinding, -, hfound⟩ := found_of_reaches hd hm hplain
      obtain ⟨v, -, hv, -⟩ := env_eq_ok hfound
      exact ⟨v, hbinding ▸ hv⟩
    · exact not_onCycle_of_found hd hm hplain

end Scope

namespace SymbolTable

open Bindings (BearsOut)

/-- A look-up in a table after any calls. -/
theorem bearsOut_lookup (calls : List Call) (name : String) :
    BearsOut (after calls).binding? name ((lookup name).outcome (after calls)) := by
  obtain ⟨hq, hactive, hbinding⟩ := quiet_after calls
  rw [hq.outcome_lookup_eq hbinding hactive, ← funext hbinding]
  exact Scope.bearsOut_lookup (boundBy calls) hactive name

example : (Scope.lookup "A").outcome
    ⟨[("A", .offset (.symbol "B") 1), ("B", .offset (.symbol "A") 1)], []⟩ =
      .error (.fault (.circularReference "A")) := rfl

end SymbolTable

end Eleven

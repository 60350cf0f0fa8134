import Eleven.Proofs.Lazy.Table
import Mathlib.Data.List.Induction

/-! Any history of calls on a symbol table: afterwards a look-up gives what a scope that keeps no
results gives for the same definitions. -/
namespace Eleven

namespace SymbolTable

/-- What can be asked of a symbol table. -/
inductive Call where
  | define (name : String) (v : Lazy) (pos : Position)
  | lookup (name : String)
  | resolveAll

namespace Call

/-- The table after a call, whether or not the call succeeds. -/
def perform (t : SymbolTable) : Call → SymbolTable
  | .define name v pos => ((Attempt.update (SymbolTable.define name v pos)).run t).2
  | .lookup name => ((SymbolTable.lookup name).run t).2
  | .resolveAll => (SymbolTable.resolveAll.run t).2

/-- What a call binds in a scope: the first definition of a name stands. -/
def bind (s : Scope) : Call → Scope
  | .define name v _ => if (s.binding? name).isSome then s else s.set name v
  | _ => s

end Call

/-- The table after calls on a new one. -/
def after (calls : List Call) : SymbolTable := calls.foldl Call.perform empty

/-- A new scope with the bindings that calls make. -/
def boundBy (calls : List Call) : Scope := calls.foldl Call.bind Scope.empty

theorem perform_define {t t' : SymbolTable} {name : String} {v : Lazy} {pos : Position}
    (h : t.define name v pos = .ok t') : Call.perform t (.define name v pos) = t' := by
  rw [Call.perform, Attempt.update, Attempt.run_of, h]

/-- One call keeps the table quiet and bound to what the scope is bound to. -/
theorem quiet_perform {t : SymbolTable} {s : Scope} (hq : t.Quiet)
    (hb : ∀ n, s.binding? n = t.binding? n) (c : Call) :
    (Call.perform t c).Quiet ∧ ∀ n, (c.bind s).binding? n = (Call.perform t c).binding? n := by
  have hgrow : ∀ {t'}, t.Grows t' → ∀ n, s.binding? n = t'.binding? n := fun hg n => by
    rw [binding?_eq_of_definitions hg.definitions, hb n]
  cases c with
  | define name v pos =>
    cases hd : t.define name v pos with
    | error e =>
      have hhas : t.has name = true := by
        unfold SymbolTable.define at hd
        split_ifs at hd with hhas
        exact hhas
      have hstay : Call.perform t (.define name v pos) = t := by
        rw [Call.perform, Attempt.update, Attempt.run_of, hd]
      have hkeep : Call.bind s (.define name v pos) = s := by
        rw [Call.bind, hb name, binding?, Option.isSome_map]
        exact if_pos hhas
      rw [hstay, hkeep]
      exact ⟨hq, hb⟩
    | ok t' =>
      rw [perform_define hd]
      refine ⟨hq.define hd, fun n => ?_⟩
      obtain ⟨hfree, rfl⟩ := define_eq_ok hd
      have hset : Call.bind s (.define name v pos) = s.set name v := by
        rw [Call.bind, hb name, binding?, hfree]
        rfl
      rw [hset, Scope.binding?_set, hb n, binding?, binding?, find?_push _ hfree]
      by_cases hn : n = name <;> simp [hn]
  | lookup name =>
    obtain ⟨r, t', hrun, hq', hg, -⟩ := (reads_lookup name).2 t hq
    rw [Call.perform, hrun]
    exact ⟨hq', hgrow hg⟩
  | resolveAll =>
    obtain ⟨r, t', hrun, hq', hg, -⟩ := run_resolveAll hq
    rw [Call.perform, hrun]
    exact ⟨hq', hgrow hg⟩

theorem active_bind (s : Scope) (c : Call) : (c.bind s).active = s.active := by
  cases c with
  | define name v pos =>
    rw [Call.bind]
    split_ifs <;> rfl
  | lookup name => rfl
  | resolveAll => rfl

theorem quiet_after (calls : List Call) :
    (after calls).Quiet ∧ (boundBy calls).active = [] ∧
      ∀ n, (boundBy calls).binding? n = (after calls).binding? n := by
  induction calls using List.reverseRecOn with
  | nil => exact ⟨quiet_empty, rfl, fun _ => rfl⟩
  | append_singleton calls c ih =>
    obtain ⟨hq, ha, hb⟩ := ih
    rw [after, boundBy, List.foldl_append, List.foldl_append]
    obtain ⟨hq', hb'⟩ := quiet_perform hq hb c
    exact ⟨hq', (active_bind _ c).trans ha, hb'⟩

/-- After any calls, whether they succeeded or failed, a look-up gives the datum or the failure that a
new scope of the same definitions gives, and no symbol is left marked as being evaluated. -/
theorem lookup_after_calls_eq_scope (calls : List Call) :
    (∀ name, (lookup name).outcome (after calls) = (Scope.lookup name).outcome (boundBy calls)) ∧
      ∀ s ∈ (after calls).symbols, s.progress ≠ .resolving := by
  obtain ⟨hq, ha, hb⟩ := quiet_after calls
  exact ⟨hq.outcome_lookup_eq hb ha, fun s hs => hq.progress_ne_resolving hs⟩

end SymbolTable

end Eleven

import Eleven.Lazy.Scope
import Eleven.Proofs.Lazy.Value

/-! Look-ups in a scope: each gives the scope back as it was, and more room than there are bindings
makes no difference. -/
namespace Eleven

namespace Scope

/-- What each name comes to in a scope, with room for `depth` nested look-ups. -/
def env (depth : Nat) (s : Scope) : Env := fun name => (lookupWithin depth name).outcome s

/-- How many bindings are left for nested look-ups to enter. -/
def unvisited (s : Scope) : Nat := (s.bindings.filter (·.1 ∉ s.active)).length

theorem leave_enter {s : Scope} {name : String} (h : name ∉ s.active) :
    (s.enter name).leave name = s := by
  have hf : s.active.filter (· != name) = s.active := by
    rw [List.filter_eq_self]
    intro m hm
    simpa using fun hmn : m = name => h (hmn ▸ hm)
  simp [enter, leave, hf]

theorem run_lookupWithin (depth : Nat) (name : String) (s : Scope) :
    (lookupWithin depth name).run s = (s.env depth name, s) := by
  induction depth generalizing name s with
  | zero => rfl
  | succ depth ih =>
    suffices h : ((lookupWithin (depth + 1) name).run s).2 = s from Prod.ext rfl h
    refine (congrArg Prod.snd (Attempt.run_bind_ok (Attempt.run_get s) _)).trans ?_
    cases hb : s.binding? name with
    | none => rfl
    | some v =>
      by_cases hact : name ∈ s.active
      · simp only [hact, if_true]
        rfl
      · simp only [hact, if_false]
        rw [Attempt.run_bind_ok (Attempt.run_modify (enter name) s), Attempt.ensuring,
          Attempt.run_of, Lazy.run_eval_of_look fun n => ih n (s.enter name)]
        exact leave_enter hact

theorem env_succ (depth : Nat) (s : Scope) (name : String) :
    s.env (depth + 1) name =
      match s.binding? name with
      | none => .error (.fault (.undefinedSymbol name))
      | some v =>
        if name ∈ s.active then .error (.fault (.circularReference name))
        else v.value ((s.enter name).env depth) := by
  refine (congrArg Prod.fst (Attempt.run_bind_ok (Attempt.run_get s) _)).trans ?_
  cases hb : s.binding? name with
  | none => rfl
  | some v =>
    by_cases hact : name ∈ s.active
    · simp only [hact, if_true]
      rfl
    · simp only [hact, if_false]
      rw [Attempt.run_bind_ok (Attempt.run_modify (enter name) s), Attempt.ensuring,
        Attempt.run_of, Lazy.run_eval_of_look fun n => run_lookupWithin depth n (s.enter name)]

theorem unvisited_enter_lt {s : Scope} {name : String} {v : Lazy} (hb : s.binding? name = some v)
    (hact : name ∉ s.active) : (s.enter name).unvisited < s.unvisited := by
  have hmem : (name, v) ∈ s.bindings := by
    obtain ⟨before, after, h, -⟩ := List.lookup_eq_some_iff.mp hb
    rw [h]
    simp
  have hsub : (s.enter name).bindings.filter (·.1 ∉ (s.enter name).active) =
      (s.bindings.filter (·.1 ∉ s.active)).filter (·.1 ≠ name) := by
    rw [List.filter_filter]
    refine List.filter_congr fun b _ => ?_
    simp [enter]
  rw [unvisited, hsub, unvisited]
  refine List.length_filter_lt_length_iff_exists.mpr ⟨(name, v), ?_, by simp⟩
  simpa using ⟨hmem, hact⟩

/-- Room beyond what the bindings can fill changes nothing. -/
theorem env_eq_of_unvisited_lt {s : Scope} {j k : Nat} (hj : s.unvisited < j)
    (hk : s.unvisited < k) : s.env j = s.env k := by
  induction j generalizing s k with
  | zero => omega
  | succ j ih =>
    obtain ⟨k, rfl⟩ : ∃ m, k = m + 1 := ⟨k - 1, by omega⟩
    funext name
    rw [env_succ, env_succ]
    cases hb : s.binding? name with
    | none => rfl
    | some v =>
      by_cases hact : name ∈ s.active
      · simp only [hact, if_true]
      · have hlt := unvisited_enter_lt hb hact
        rw [ih (k := k) (by omega) (by omega)]

end Scope

end Eleven

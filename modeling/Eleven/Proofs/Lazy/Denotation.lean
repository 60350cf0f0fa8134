import Eleven.Proofs.Lazy.Agreement
import Eleven.Proofs.Lazy.Arithmetic

/-! What the symbols of a table come to, and how that decides look-ups and resolutions. -/
namespace Eleven.SymbolTable

/-- What the symbols of a table come to. -/
def env (t : SymbolTable) : Env := t.scope.env (t.size + 1)

theorem Akin.env_eq {t t' : SymbolTable} (h : t.Akin t') : t'.env = t.env := by
  funext name
  rw [env, env, ← h.quiet'.outcome_lookup, ← h.quiet.outcome_lookup, h.outcome_lookup]

theorem Grows.env_eq {t t' : SymbolTable} (hq : t.Quiet) (hq' : t'.Quiet) (hg : t.Grows t') :
    t'.env = t.env :=
  Akin.env_eq ⟨hq, hq', congrFun (binding?_eq_of_definitions hg.definitions)⟩

/-- A computation over a table that comes to what its symbols make of it. -/
def Denotes {α : Type} (a : Attempt SymbolTable α) (b : Attempt Env α) : Prop :=
  b.Inert ∧ ∀ t, t.Quiet → ∃ t', a.run t = (b.outcome t.env, t') ∧ t'.Quiet ∧ t.Grows t'

theorem Denotes.lift {α : Type} (e : Except Failure α) : Denotes (liftM e) (liftM e) :=
  ⟨.lift e, fun t hq => ⟨t, rfl, hq, .refl t⟩⟩

theorem Denotes.bind {α β : Type} {a : Attempt SymbolTable α} {b : Attempt Env α}
    {f : α → Attempt SymbolTable β} {g : α → Attempt Env β} (hab : Denotes a b)
    (hfg : ∀ x, Denotes (f x) (g x)) : Denotes (a >>= f) (b >>= g) := by
  refine ⟨hab.1.bind fun x => (hfg x).1, fun t hq => ?_⟩
  obtain ⟨t₁, hrun, hq₁, hg₁⟩ := hab.2 t hq
  cases hb : b.outcome t.env with
  | error e =>
    rw [hb] at hrun
    rw [hab.1.outcome_bind_error hb]
    exact ⟨t₁, Attempt.run_bind_error hrun f, hq₁, hg₁⟩
  | ok x =>
    rw [hb] at hrun
    obtain ⟨t₂, hrun₂, hq₂, hg₂⟩ := (hfg x).2 t₁ hq₁
    rw [hg₁.env_eq hq hq₁] at hrun₂
    rw [hab.1.outcome_bind_ok hb]
    exact ⟨t₂, (Attempt.run_bind_ok hrun f).trans hrun₂, hq₂, hg₁.trans hg₂⟩

theorem denotes_lookup (name : String) : Denotes (lookup name) (Env.look name) := by
  refine ⟨fun _ => rfl, fun t hq => ?_⟩
  obtain ⟨r, t', hrun, hq', hg, -⟩ := (reads_lookup name).2 t hq
  have hr := hq.outcome_lookup name
  rw [Attempt.outcome_eq_of_run hrun] at hr
  subst hr
  exact ⟨t', hrun, hq', hg⟩

theorem denotes_eval (v : Lazy) : Denotes (v.eval lookup) (v.eval Env.look) :=
  Lazy.eval_related (R := Denotes) Denotes.lift Denotes.bind denotes_lookup v

theorem Quiet.run_resolveInt {t : SymbolTable} (hq : t.Quiet) (v : Lazy) :
    ∃ t', (v.resolveInt lookup).run t = (v.intValue t.env, t') ∧ t'.Quiet ∧ t.Grows t' := by
  have h : Denotes (v.resolveInt lookup) (v.resolveInt Env.look) :=
    (denotes_eval v).bind fun d => Denotes.lift d.expectInt
  obtain ⟨t', hrun, hq', hg⟩ := h.2 t hq
  rw [Lazy.outcome_resolveInt] at hrun
  exact ⟨t', hrun, hq', hg⟩

/-- Where all symbols have been resolved, the results are what they come to. -/
theorem results_eq_env {t t' : SymbolTable} (hq : t.Quiet)
    (h : resolveAll.run t = (.ok (), t')) : t'.results = t.env := by
  obtain ⟨hq', hg, hs⟩ := settled_of_resolveAll hq h
  funext name
  have hlook := hq'.outcome_lookup name
  rw [Attempt.outcome_eq_of_run (hs.run_lookup name)] at hlook
  exact hlook.trans (congrFun (hg.env_eq hq hq') name)

theorem run_resolveEach_of_env {t : SymbolTable} (hq : t.Quiet) {ys : List Symbol}
    (h : ∀ y ∈ ys, ∃ m, (Lazy.symbol y.name).intValue t.env = .ok m) :
    ∃ t', (resolveEach ys).run t = (.ok (), t') := by
  induction ys generalizing t with
  | nil => exact ⟨t, rfl⟩
  | cons y ys ih =>
    obtain ⟨m, hm⟩ := h y (by simp)
    obtain ⟨t₁, hrun, hq₁, hg⟩ := hq.run_resolveInt (.symbol y.name)
    have hsymbol : (resolveSymbol y).run t = (.ok m, t₁) := by
      rw [resolveSymbol, Attempt.run_mapFailure, hrun, hm]
      rfl
    obtain ⟨t', hrest⟩ := ih hq₁ fun z hz => by
      rw [hg.env_eq hq hq₁]
      exact h z (List.mem_cons_of_mem y hz)
    exact ⟨t', by rw [resolveEach, Attempt.run_bind_ok hsymbol, hrest]⟩

/-- All symbols can be resolved exactly if each of them comes to an integer. -/
theorem Quiet.resolveAll_eq_ok {t : SymbolTable} (hq : t.Quiet) :
    (∃ t', resolveAll.run t = (.ok (), t')) ↔
      ∀ name v, t.binding? name = some v → ∃ m, (Lazy.symbol name).intValue t.env = .ok m := by
  constructor
  · rintro ⟨t', h⟩ name v hv
    obtain ⟨y, hy, -⟩ := Option.map_eq_some_iff.mp hv
    obtain ⟨r, u, hrun, -, -, hres⟩ := run_resolveAll hq
    rw [h] at hrun
    cases hrun
    obtain ⟨m, hm⟩ := hres rfl y (List.mem_of_find?_eq_some hy)
    rw [name_of_find? hy, ← results_eq_ok, results_eq_env hq h] at hm
    exact ⟨m, by rw [Lazy.intValue, Lazy.value_symbol, hm]; rfl⟩
  · intro h
    have hall : ∀ y ∈ t.symbols, ∃ m, (Lazy.symbol y.name).intValue t.env = .ok m := by
      intro y hy
      exact h y.name y.value (by rw [binding?, hq.find?_eq hy]; rfl)
    obtain ⟨t', hrun⟩ := run_resolveEach_of_env hq hall
    exact ⟨t', by rw [resolveAll, Attempt.run_bind_ok (Attempt.run_get t), hrun]⟩

end Eleven.SymbolTable

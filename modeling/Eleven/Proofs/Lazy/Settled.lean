import Eleven.Proofs.Lazy.Table

/-! Symbol tables in which every symbol has its integer. -/
namespace Eleven

/-- The environment that a list of symbols makes. -/
def Env.ofSymbols (symbols : List (String × Int64)) : Env := fun name =>
  match symbols.lookup name with
  | some n => .ok (.int n)
  | none => .error (.fault (.undefinedSymbol name))

theorem Env.ofSymbols_eq_ok {symbols : List (String × Int64)} {name : String} {d : Datum} :
    Env.ofSymbols symbols name = .ok d ↔ ∃ n, symbols.lookup name = some n ∧ d = .int n := by
  rw [Env.ofSymbols]
  cases symbols.lookup name with
  | none => simp
  | some n => simp [eq_comm]

namespace SymbolTable

/-- Every symbol has its integer. -/
def Settled (t : SymbolTable) : Prop := ∀ s ∈ t.symbols, ∃ n, s.progress = .resolved (.int n)

theorem settled_of_all {t : SymbolTable}
    (h : t.symbols.all (fun s => s.progress matches .resolved (.int _)) = true) : t.Settled := by
  intro s hs
  have hcase := List.all_eq_true.mp h s hs
  cases hprogress : s.progress with
  | resolved d =>
    cases d with
    | int n => exact ⟨n, rfl⟩
    | _ =>
      rw [hprogress] at hcase
      cases hcase
  | _ =>
    rw [hprogress] at hcase
    cases hcase

theorem settled_of_resolveAll {t t' : SymbolTable} (hq : t.Quiet)
    (h : resolveAll.run t = (.ok (), t')) : t'.Quiet ∧ t.Grows t' ∧ t'.Settled := by
  obtain ⟨r, u, hrun, hq', hg, hres⟩ := run_resolveAll hq
  rw [h] at hrun
  cases hrun
  refine ⟨hq', hg, fun s hs => ?_⟩
  have hname : s.name ∈ t.names := hg.names ▸ List.mem_map_of_mem hs
  obtain ⟨y, hy, hyn⟩ := List.mem_map.mp hname
  obtain ⟨n, hn⟩ := hres rfl y hy
  rw [IsResolved, progress?, hyn, hq'.find?_eq hs] at hn
  exact ⟨n, Option.some.inj hn⟩

namespace Settled

variable {t : SymbolTable} (hs : t.Settled)
include hs

theorem run_lookup (name : String) : (lookup name).run t = (t.results name, t) := by
  rw [lookup, Attempt.run_bind_ok (Attempt.run_get t), lookupWithin,
    Attempt.run_bind_ok (Attempt.run_get t), results, progress?]
  cases hf : t.find? name with
  | none => rfl
  | some s =>
    obtain ⟨n, hn⟩ := hs s (List.mem_of_find?_eq_some hf)
    simp only [Option.map_some, hn]
    rfl

theorem run_eval (v : Lazy) : (v.eval lookup).run t = (v.value t.results, t) :=
  Lazy.run_eval_of_look hs.run_lookup v

theorem run_resolveInt (v : Lazy) : (v.resolveInt lookup).run t = (v.intValue t.results, t) := by
  have heval := hs.run_eval v
  rw [Lazy.resolveInt, Lazy.intValue]
  cases hv : v.value t.results with
  | error e =>
    rw [hv] at heval
    exact Attempt.run_bind_error heval _
  | ok d =>
    rw [hv] at heval
    exact Attempt.run_bind_ok heval _

theorem results_eq : t.results = Env.ofSymbols t.values := by
  have hlookup : ∀ (symbols : List Symbol) (name : String),
      (∀ s ∈ symbols, ∃ n, s.progress = .resolved (.int n)) →
      (symbols.find? (·.name == name)).map (·.progress) =
        ((symbols.filterMap Symbol.integer?).lookup name).map fun n => .resolved (.int n) := by
    intro symbols name hall
    induction symbols with
    | nil => rfl
    | cons s rest ih =>
      obtain ⟨n, hn⟩ := hall s (by simp)
      have hint : s.integer? = some (s.name, n) := by rw [Symbol.integer?, hn]
      rw [List.filterMap_cons_some hint, List.find?_cons, List.lookup_cons]
      by_cases hname : s.name = name
      · simp [hname, hn]
      · have hne : (s.name == name) = false := by simpa using hname
        have hne' : (name == s.name) = false := by simpa using fun h => hname h.symm
        simp only [hne, hne']
        exact ih fun s' hs' => hall s' (List.mem_cons_of_mem s hs')
  funext name
  rw [results, progress?, find?, hlookup t.symbols name hs, Env.ofSymbols, values]
  cases (t.symbols.filterMap Symbol.integer?).lookup name <;> rfl

end Settled

section Integers

variable {t : SymbolTable} (hq : t.Quiet)
include hq

/-- The integers kept are the results that are integers. -/
theorem Quiet.mem_values {name : String} {n : Int64} :
    (name, n) ∈ t.values ↔ t.results name = .ok (.int n) := by
  have hinteger : ∀ s : Symbol, s.integer? = some (name, n) ↔
      s.name = name ∧ s.progress = .resolved (.int n) := by
    intro s
    unfold Symbol.integer?
    split <;> simp_all
  rw [results_eq_ok, IsResolved, progress?, Option.map_eq_some_iff, values, List.mem_filterMap]
  constructor
  · rintro ⟨s, hs, hint⟩
    obtain ⟨rfl, hprogress⟩ := (hinteger s).mp hint
    exact ⟨s, hq.find?_eq hs, hprogress⟩
  · rintro ⟨s, hfind, hprogress⟩
    have hname : s.name = name := by simpa using List.find?_some hfind
    exact ⟨s, List.mem_of_find?_eq_some hfind, (hinteger s).mpr ⟨hname, hprogress⟩⟩

theorem Quiet.outcome_lookup_int {name : String} {n : Int64}
    (hb : t.binding? name = some (.int n)) : (lookup name).outcome t = .ok (.int n) := by
  rw [hq.outcome_lookup, Scope.env_succ, binding?_scope, hb]
  rfl

theorem Settled.results_int (hs : t.Settled) {name : String} {n : Int64}
    (hb : t.binding? name = some (.int n)) : t.results name = .ok (.int n) := by
  have h := hq.outcome_lookup_int hb
  rwa [Attempt.outcome_eq_of_run (hs.run_lookup name)] at h

theorem outcome_resolveSymbol_int {s : Symbol} {n : Int64}
    (hb : t.binding? s.name = some (.int n)) : ((resolveSymbol s).run t).1 = .ok n := by
  have hlook := hq.outcome_lookup_int hb
  rcases hrun : (lookup s.name).run t with ⟨r, t'⟩
  rw [Attempt.outcome_eq_of_run hrun] at hlook
  subst hlook
  rw [resolveSymbol, Attempt.run_mapFailure]
  have hint : ((Lazy.symbol s.name).resolveInt lookup).run t = (.ok n, t') :=
    Attempt.run_bind_ok hrun _
  rw [hint]
  rfl

/-- Symbols that are integers can be resolved. -/
theorem run_resolveEach_ints {ys : List Symbol}
    (h : ∀ y ∈ ys, ∃ n, t.binding? y.name = some (.int n)) :
    ∃ t', (resolveEach ys).run t = (.ok (), t') := by
  induction ys generalizing t with
  | nil => exact ⟨t, rfl⟩
  | cons y ys ih =>
    obtain ⟨n, hn⟩ := h y (by simp)
    obtain ⟨r, t₁, hrun, hq₁, hg, -⟩ := run_resolveSymbol y hq
    have hr := outcome_resolveSymbol_int hq hn
    rw [hrun] at hr
    cases hr
    obtain ⟨t', ht'⟩ := ih hq₁ fun z hz => by
      rw [binding?_eq_of_definitions hg.definitions]
      exact h z (List.mem_cons_of_mem y hz)
    exact ⟨t', by rw [resolveEach, Attempt.run_bind_ok hrun, ht']⟩

end Integers

end SymbolTable

end Eleven

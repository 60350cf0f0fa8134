import Eleven.Proofs.Failure.Accord
import Eleven.Proofs.Lazy.Settled
import Mathlib.Data.List.Basic

/-! Results that are kept cannot be observed: what a computation over a symbol table comes to depends
on the definitions alone. -/
namespace Eleven

section Agree

variable {σ α β : Type} {S : σ → σ → Prop}

/-- From related states two computations come to the same, and leave related states. -/
def Agree (S : σ → σ → Prop) (x y : Attempt σ α) : Prop :=
  ∀ s s', S s s' → ∃ r u u', x.run s = (r, u) ∧ y.run s' = (r, u') ∧ S u u'

theorem Agree.lift (e : Except Failure α) : Agree S (liftM e) (liftM e) := by
  intro s s' h
  exact ⟨e, s, s', rfl, rfl, h⟩

theorem Agree.bind {x y : Attempt σ α} {f g : α → Attempt σ β} (hxy : Agree S x y)
    (hfg : ∀ a, Agree S (f a) (g a)) : Agree S (x >>= f) (y >>= g) := by
  intro s s' h
  obtain ⟨r, u, u', hx, hy, hu⟩ := hxy s s' h
  cases r with
  | error e => exact ⟨.error e, u, u', Attempt.run_bind_error hx f, Attempt.run_bind_error hy g, hu⟩
  | ok a =>
    obtain ⟨r, w, w', hf, hg, hw⟩ := hfg a u u' hu
    have hxf := (Attempt.run_bind_ok hx f).trans hf
    have hyg := (Attempt.run_bind_ok hy g).trans hg
    exact ⟨r, w, w', hxf, hyg, hw⟩

theorem Agree.mapFailure (f : Failure → Failure) {x y : Attempt σ α} (h : Agree S x y) :
    Agree S (x.mapFailure f) (y.mapFailure f) := by
  intro s s' hs
  obtain ⟨r, u, u', hx, hy, hu⟩ := h s s' hs
  refine ⟨r.mapError f, u, u', ?_, ?_, hu⟩
  · rw [Attempt.run_mapFailure, hx]
  · rw [Attempt.run_mapFailure, hy]

/-- A change of state that is refused, or not, on both sides. -/
theorem Agree.update {f g : σ → Except Failure σ}
    (h : ∀ s s', S s s' → (∃ e, f s = .error e ∧ g s' = .error e) ∨
      ∃ u u', f s = .ok u ∧ g s' = .ok u' ∧ S u u') :
    Agree S (Attempt.update f) (Attempt.update g) := by
  intro s s' hs
  unfold Attempt.update
  rcases h s s' hs with ⟨e, hf, hg⟩ | ⟨u, u', hf, hg, hu⟩
  · exact ⟨.error e, s, s', by rw [Attempt.run_of, hf], by rw [Attempt.run_of, hg], hs⟩
  · exact ⟨.ok (), u, u', by rw [Attempt.run_of, hf], by rw [Attempt.run_of, hg], hu⟩

theorem Agree.outcome_eq {x y : Attempt σ α} (h : Agree S x y) {s s' : σ} (hs : S s s') :
    x.outcome s = y.outcome s' := by
  obtain ⟨r, u, u', hx, hy, -⟩ := h s s' hs
  rw [Attempt.outcome_eq_of_run hx, Attempt.outcome_eq_of_run hy]

/-- Where the failures are the same too, the computations accord. -/
theorem Agree.accord {x y : Attempt σ α} (h : Agree S x y) :
    Accord S x y := by
  intro s s' hs
  obtain ⟨r, u, u', hx, hy, hu⟩ := h s s' hs
  cases r with
  | error e =>
    rw [Attempt.result_eq_error hx, Attempt.result_eq_error hy]
    exact .error e e
  | ok a =>
    rw [Attempt.result_eq_of_run hx, Attempt.result_eq_of_run hy]
    exact .ok ⟨rfl, hu⟩

end Agree

namespace SymbolTable

/-- Tables between calls that bind the same names to the same values. -/
structure Akin (t t' : SymbolTable) : Prop where
  quiet : t.Quiet
  quiet' : t'.Quiet
  binding : ∀ name, t'.binding? name = t.binding? name

section Bindings

variable {t t' : SymbolTable} (h : t.Akin t')
include h

theorem Akin.refl_left : t.Akin t := ⟨h.quiet, h.quiet, fun _ => rfl⟩

theorem Akin.trans {t'' : SymbolTable} (h' : t'.Akin t'') : t.Akin t'' :=
  ⟨h.quiet, h'.quiet', fun name => (h'.binding name).trans (h.binding name)⟩

theorem Akin.of_grows {u u' : SymbolTable} (hq : u.Quiet) (hq' : u'.Quiet) (hg : t.Grows u)
    (hg' : t'.Grows u') : u.Akin u' := by
  refine ⟨hq, hq', fun name => ?_⟩
  rw [binding?_eq_of_definitions hg'.definitions, binding?_eq_of_definitions hg.definitions,
    h.binding]

theorem Akin.has_eq (name : String) : t'.has name = t.has name := by
  have hhas : ∀ u : SymbolTable, u.has name = (u.binding? name).isSome := by
    intro u
    rw [binding?, Option.isSome_map, has]
  rw [hhas t', h.binding, ← hhas t]

theorem Akin.outcome_lookup (name : String) :
    (lookup name).outcome t' = (lookup name).outcome t := by
  have hscope : ∀ n, t.scope.binding? n = t'.binding? n := fun n =>
    (binding?_scope t n).trans (h.binding n).symm
  rw [h.quiet'.outcome_lookup_eq hscope rfl, h.quiet.outcome_lookup_eq (binding?_scope t) rfl]

theorem Akin.results_eq (hs : t.Settled) (hs' : t'.Settled) : t'.results = t.results := by
  funext name
  have hlook := h.outcome_lookup name
  rwa [Attempt.outcome_eq_of_run (hs.run_lookup name),
    Attempt.outcome_eq_of_run (hs'.run_lookup name)] at hlook

end Bindings

/-- A relation of tables that evaluations and definitions keep, and that fixes the bindings. -/
structure Stable (T : SymbolTable → SymbolTable → Prop) : Prop where
  akin : ∀ {t t'}, T t t' → t.Akin t'
  of_grows : ∀ {t t' u u'}, T t t' → u.Quiet → u'.Quiet → t.Grows u → t'.Grows u' → T u u'
  of_define : ∀ {t t' u u' name v pos}, T t t' → t.define name v pos = .ok u →
    t'.define name v pos = .ok u' → T u u'

theorem stable_akin : Stable Akin where
  akin h := h
  of_grows h := h.of_grows
  of_define h hdef hdef' := by
    refine ⟨h.quiet.define hdef, h.quiet'.define hdef', fun name => ?_⟩
    rw [binding?_define hdef, binding?_define hdef', h.binding]

section Stable

variable {T : SymbolTable → SymbolTable → Prop} (hT : Stable T)
include hT

/-- A definition is refused by both tables or taken by both. -/
theorem Stable.define {t t' : SymbolTable} (h : T t t') (name : String) (v : Lazy)
    (pos : Position) :
    (∃ e, t.define name v pos = .error e ∧ t'.define name v pos = .error e) ∨
      ∃ u u', t.define name v pos = .ok u ∧ t'.define name v pos = .ok u' ∧ T u u' := by
  have hsame := (hT.akin h).has_eq name
  by_cases hhas : t.has name = true
  · exact .inl ⟨(Problem.redefinition name).failure pos, if_pos hhas, if_pos (hsame.trans hhas)⟩
  · have hhas' : ¬ t'.has name = true := fun h' => hhas (hsame.symm.trans h')
    have hdef : t.define name v pos = .ok (t.push ⟨name, v, pos, .pending⟩) := if_neg hhas
    have hdef' : t'.define name v pos = .ok (t'.push ⟨name, v, pos, .pending⟩) := if_neg hhas'
    exact .inr ⟨_, _, hdef, hdef', hT.of_define h hdef hdef'⟩

theorem agree_lookup (name : String) : Agree T (lookup name) (lookup name) := by
  intro t t' h
  have hakin := hT.akin h
  obtain ⟨r, u, hrun, hq, hg, -⟩ := (reads_lookup name).2 t hakin.quiet
  obtain ⟨r', u', hrun', hq', hg', -⟩ := (reads_lookup name).2 t' hakin.quiet'
  have hr := hakin.outcome_lookup name
  rw [Attempt.outcome_eq_of_run hrun, Attempt.outcome_eq_of_run hrun'] at hr
  subst hr
  exact ⟨r', u, u', hrun, hrun', hT.of_grows h hq hq' hg hg'⟩

theorem agree_eval (v : Lazy) : Agree T (v.eval lookup) (v.eval lookup) :=
  Lazy.eval_related (R := Agree T) Agree.lift Agree.bind (agree_lookup hT) v

theorem agree_resolveInt (v : Lazy) : Agree T (v.resolveInt lookup) (v.resolveInt lookup) :=
  (agree_eval hT v).bind fun d => Agree.lift d.expectInt

theorem agree_resolveEach (ys : List Symbol) : Agree T (resolveEach ys) (resolveEach ys) := by
  induction ys with
  | nil => exact Agree.lift (.ok ())
  | cons y ys ih =>
    have hy : Agree T (resolveSymbol y) (resolveSymbol y) :=
      (agree_resolveInt hT (.symbol y.name)).mapFailure _
    exact hy.bind fun _ => ih

end Stable

/-- Tables between calls that differ at most in the results they keep. -/
structure Alike (t t' : SymbolTable) : Prop where
  quiet : t.Quiet
  quiet' : t'.Quiet
  definitions : t'.definitions = t.definitions

theorem Quiet.alike {t : SymbolTable} (hq : t.Quiet) : t.Alike t := ⟨hq, hq, rfl⟩

theorem Alike.akin {t t' : SymbolTable} (h : t.Alike t') : t.Akin t' :=
  ⟨h.quiet, h.quiet', congrFun (binding?_eq_of_definitions h.definitions)⟩

theorem stable_alike : Stable Alike where
  akin h := h.akin
  of_grows h hq hq' hg hg' :=
    ⟨hq, hq', hg'.definitions.trans (h.definitions.trans hg.definitions.symm)⟩
  of_define {t t' u u' name v pos} h hdef hdef' := by
    refine ⟨h.quiet.define hdef, h.quiet'.define hdef', ?_⟩
    have hpush : ∀ w : SymbolTable, (w.push ⟨name, v, pos, .pending⟩).definitions =
        w.definitions ++ [⟨name, v, pos, .pending⟩] := fun w => List.map_append
    rw [(define_eq_ok hdef).2, (define_eq_ok hdef').2, hpush, hpush, h.definitions]

theorem Alike.names_eq {t t' : SymbolTable} (h : t.Alike t') : t'.names = t.names := by
  rw [← names_definitions, h.definitions, names_definitions]

/-- Symbols are resolved by their names, whatever is known about them. -/
theorem resolveEach_fresh (ys : List Symbol) :
    resolveEach (ys.map Symbol.fresh) = resolveEach ys := by
  induction ys with
  | nil => rfl
  | cons y ys ih =>
    rw [List.map_cons, resolveEach, resolveEach, ih]
    rfl

theorem agree_resolveAll : Agree Alike resolveAll resolveAll := by
  intro t t' h
  have hall : ∀ u : SymbolTable, resolveAll.run u = (resolveEach u.definitions).run u := by
    intro u
    rw [resolveAll, Attempt.run_bind_ok (Attempt.run_get u), definitions, resolveEach_fresh]
  rw [hall t, hall t', h.definitions]
  exact agree_resolveEach stable_alike t.definitions t t' h

/-- The integer that a name is known to come to. -/
def integerOf? (env : Env) (name : String) : Option (String × Int64) :=
  match env name with
  | .ok (.int n) => some (name, n)
  | _ => none

theorem Quiet.values_eq {t : SymbolTable} (hq : t.Quiet) :
    t.values = t.names.filterMap (integerOf? t.results) := by
  rw [values, names, List.filterMap_map]
  refine List.filterMap_congr fun s hs => ?_
  have hprogress : t.progress? s.name = some s.progress := by
    rw [progress?, hq.find?_eq hs, Option.map_some]
  rw [Function.comp_apply, integerOf?, results, hprogress, Symbol.integer?]
  cases s.progress with
  | pending => rfl
  | resolving => rfl
  | resolved d => cases d <;> rfl

/-- Where every symbol has its integer, the integers follow from the definitions. -/
theorem Alike.values_eq {t t' : SymbolTable} (h : t.Alike t') (hs : t.Settled) (hs' : t'.Settled) :
    t'.values = t.values := by
  rw [h.quiet'.values_eq, h.quiet.values_eq, h.akin.results_eq hs hs', h.names_eq]

end SymbolTable

end Eleven

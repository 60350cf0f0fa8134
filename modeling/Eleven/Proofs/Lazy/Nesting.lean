import Eleven.Proofs.Lazy.Table
import Mathlib.Logic.Function.Iterate

/-! How deep look-ups nest. Each enters a name that none around it has entered, so one level more
than there are bindings is always enough, and what would happen further down makes no difference.
On the way out every mark is taken off again. -/
namespace Eleven

/-- `look` is what the recursion with the body `step` comes to for a name, and the calls of that
recursion are nested at most `depth` deep: whatever stands for deeper ones is never asked. -/
structure Unrolls {σ : Type} (step : (String → Attempt σ Datum) → String → Attempt σ Datum)
    (look : String → Attempt σ Datum) (depth : Nat) (name : String) (s : σ) : Prop where
  recursion : (look name).run s = (step look name).run s
  depth : ∀ deeper, (step^[depth] deeper name).run s = (look name).run s

namespace Scope

/-- One look-up, where `nested` looks up the names of the value. -/
def lookupStep (nested : String → Attempt Scope Datum) (name : String) : Attempt Scope Datum := do
  let s ← get
  match s.binding? name with
  | none => throw (.fault (.undefinedSymbol name))
  | some v =>
    if name ∈ s.active then throw (.fault (.circularReference name))
    else
      modify (enter name)
      Attempt.ensuring (v.eval nested) (leave name)

/-- One look-up over nested ones with room for `depth` levels has room for one level more. -/
theorem run_lookupStep {nested : String → Attempt Scope Datum} {depth : Nat} {name : String}
    {s : Scope} (h : ∀ v, s.binding? name = some v → name ∉ s.active →
      ∀ n, (nested n).run (s.enter name) = ((s.enter name).env depth n, s.enter name)) :
    (lookupStep nested name).run s = (s.env (depth + 1) name, s) := by
  rw [lookupStep, Attempt.run_bind_ok (Attempt.run_get s), env_succ]
  cases hb : s.binding? name with
  | none => rfl
  | some v =>
    by_cases hact : name ∈ s.active
    · simp only [hact, if_true]
      rfl
    · have heval := Lazy.run_eval_of_look (h v hb hact) v
      simp only [hact, if_false]
      rw [Attempt.run_bind_ok (Attempt.run_modify (enter name) s), Attempt.ensuring,
        Attempt.run_of, heval]
      exact congrArg (Prod.mk _) (leave_enter hact)

/-- The induction is on the depth. Entering a name leaves one binding less for the levels below. -/
theorem run_iterate_lookupStep (deeper : String → Attempt Scope Datum) {depth : Nat} {s : Scope}
    (hs : s.unvisited < depth) (name : String) :
    (lookupStep^[depth] deeper name).run s = (s.env depth name, s) := by
  induction depth generalizing name s with
  | zero => omega
  | succ depth ih =>
    rw [Function.iterate_succ_apply']
    apply run_lookupStep
    intro v hb hact n
    have hless := unvisited_enter_lt hb hact
    exact ih (by omega) n

theorem run_lookup (s : Scope) (name : String) :
    (lookup name).run s = (s.env (s.bindings.length + 1) name, s) := by
  rw [lookup, Attempt.run_bind_ok (Attempt.run_get s), run_lookupWithin]

/-- Look-ups in a scope nest no deeper than one level more than it has bindings, also where some of
its names are being evaluated already. -/
theorem unrolls_lookup (s : Scope) (name : String) :
    Unrolls lookupStep lookup (s.bindings.length + 1) name s := by
  have hroom : s.unvisited < s.bindings.length + 1 := Nat.lt_succ_of_le s.unvisited_le
  constructor
  · rw [run_lookup]
    symm
    apply run_lookupStep
    intro v hb hact n
    have hless := unvisited_enter_lt hb hact
    have hdepth : (s.enter name).env (s.bindings.length + 1) =
        (s.enter name).env s.bindings.length := env_eq_of_unvisited_lt (by omega) (by omega)
    rw [← hdepth]
    exact run_lookup (s.enter name) n
  · intro deeper
    rw [run_iterate_lookupStep deeper hroom, run_lookup]

end Scope

namespace SymbolTable

/-- One look-up, where `nested` looks up the names of the value. -/
def lookupStep (nested : String → Attempt SymbolTable Datum) (name : String) :
    Attempt SymbolTable Datum := do
  let t ← get
  match t.find? name with
  | none => throw (.fault (.undefinedSymbol name))
  | some s =>
    match s.progress with
    | .resolved d => pure d
    | .resolving => throw (.fault (.circularReference name))
    | .pending => resolving name (s.value.eval nested)

theorem lookupWithin_succ (depth : Nat) :
    lookupWithin (depth + 1) = lookupStep (lookupWithin depth) := rfl

/-- What a look-up may change: symbols that were pending have results. No mark of a symbol that is
being evaluated is left behind, and none is lost. -/
structure OnlyResolves (t t' : SymbolTable) : Prop where
  definitions : t'.definitions = t.definitions
  progress : ∀ n, t'.progress? n = t.progress? n ∨
    t.progress? n = some .pending ∧ ∃ d, t'.progress? n = some (.resolved d)

namespace OnlyResolves

variable {t u w : SymbolTable}

theorem refl (t : SymbolTable) : t.OnlyResolves t := ⟨rfl, fun _ => .inl rfl⟩

theorem trans (h : t.OnlyResolves u) (h' : u.OnlyResolves w) : t.OnlyResolves w := by
  constructor
  · exact h'.definitions.trans h.definitions
  · intro n
    rcases h.progress n with hn | ⟨hpending, d, hd⟩
    · rw [← hn]
      exact h'.progress n
    · -- a result stays
      rcases h'.progress n with hn' | ⟨hpending', -⟩
      · exact .inr ⟨hpending, d, hn'.trans hd⟩
      · rw [hd] at hpending'
        cases hpending'

/-- The symbols that are being evaluated are the same as before. -/
theorem resolving_iff (h : t.OnlyResolves u) (n : String) :
    u.progress? n = some .resolving ↔ t.progress? n = some .resolving := by
  rcases h.progress n with hn | ⟨hpending, d, hd⟩
  · rw [hn]
  · rw [hpending, hd]
    simp

theorem mirrors (h : t.OnlyResolves u) {s : Scope} (hm : t.Mirrors s) : u.Mirrors s := by
  constructor
  · intro n
    rw [hm.binding, binding?_eq_of_definitions h.definitions]
  · intro n
    rw [hm.active, h.resolving_iff]

/-- A symbol that was pending is marked, something is looked up, and the mark is taken off. -/
theorem of_mark {name : String} {y : Symbol} (hy : t.find? name = some y)
    (hp : y.progress = .pending) (h : (t.mark name .resolving).OnlyResolves u)
    (r : Except Failure Datum) : t.OnlyResolves (u.mark name (progressAfter r)) := by
  have hpending : t.progress? name = some .pending := by rw [progress?, hy, Option.map_some, hp]
  have hdefinitions : u.definitions = t.definitions := by rw [h.definitions, definitions_mark]
  constructor
  · rw [definitions_mark, hdefinitions]
  · intro n
    by_cases hn : n = name
    · subst hn
      have hbound : u.binding? n = some y.value := by
        rw [binding?_eq_of_definitions hdefinitions, binding?, hy, Option.map_some]
      obtain ⟨z, hz, -⟩ := Option.map_eq_some_iff.mp hbound
      rw [progress?_mark_self hz]
      cases r with
      | ok d => exact .inr ⟨hpending, d, rfl⟩
      | error e => exact .inl hpending.symm
    · have hother := h.progress n
      rw [progress?_mark_of_ne hn] at hother ⊢
      exact hother

end OnlyResolves

/-- Two computations do the same to every table in which the names being evaluated are those of a
scope, and only resolve. -/
def Same (s : Scope) {α : Type} (a b : Attempt SymbolTable α) : Prop :=
  ∀ t, t.Mirrors s → a.run t = b.run t ∧ t.OnlyResolves (a.run t).2

section Same

variable {s : Scope} {α β : Type}

theorem Same.lift (e : Except Failure α) : Same s (liftM e) (liftM e) :=
  fun t _ => ⟨rfl, .refl t⟩

theorem Same.bind {a b : Attempt SymbolTable α} {f g : α → Attempt SymbolTable β}
    (hab : Same s a b) (hfg : ∀ x, Same s (f x) (g x)) : Same s (a >>= f) (b >>= g) := by
  intro t hm
  obtain ⟨heq, honly⟩ := hab t hm
  rcases hrun : a.run t with ⟨e | x, u⟩
  · rw [hrun] at heq honly
    rw [Attempt.run_bind_error hrun, Attempt.run_bind_error heq.symm]
    exact ⟨rfl, honly⟩
  · rw [hrun] at heq honly
    obtain ⟨hrest, honly'⟩ := hfg x u (honly.mirrors hm)
    rw [Attempt.run_bind_ok hrun, Attempt.run_bind_ok heq.symm]
    exact ⟨hrest, honly.trans honly'⟩

/-- One look-up does the same with either way to look up names inside it, if these do the same once
the name has been entered. -/
theorem same_lookupStep {f g : String → Attempt SymbolTable Datum} {name : String}
    (h : ∀ v, s.binding? name = some v → name ∉ s.active →
      ∀ n, Same (s.enter name) (f n) (g n)) :
    Same s (lookupStep f name) (lookupStep g name) := by
  intro t hm
  rw [lookupStep, lookupStep, Attempt.run_bind_ok (Attempt.run_get t),
    Attempt.run_bind_ok (Attempt.run_get t)]
  cases hf : t.find? name with
  | none => exact ⟨rfl, .refl t⟩
  | some y =>
    cases hp : y.progress with
    | resolved d =>
      simp only [hp, true_and]
      exact .refl t
    | resolving =>
      simp only [hp, true_and]
      exact .refl t
    | pending =>
      simp only [hp]
      have hbound : s.binding? name = some y.value := by
        rw [hm.binding, binding?, hf, Option.map_some]
      have hfree : name ∉ s.active := by
        rw [hm.active, progress?, hf, Option.map_some, hp]
        simp
      have heval : Same (s.enter name) (y.value.eval f) (y.value.eval g) :=
        Lazy.eval_related (R := Same (s.enter name)) Same.lift Same.bind (h _ hbound hfree) y.value
      obtain ⟨heq, honly⟩ := heval (t.mark name .resolving) (hm.enter hf)
      rw [resolving, resolving, Attempt.run_of, Attempt.run_of, ← heq]
      exact ⟨rfl, honly.of_mark hf hp _⟩

/-- Below a depth that the bindings cannot fill, nothing is ever asked. -/
theorem same_iterate_lookupStep (f g : String → Attempt SymbolTable Datum) {depth : Nat}
    (hs : s.unvisited < depth) (name : String) :
    Same s (lookupStep^[depth] f name) (lookupStep^[depth] g name) := by
  induction depth generalizing s name with
  | zero => omega
  | succ depth ih =>
    rw [Function.iterate_succ_apply', Function.iterate_succ_apply']
    apply same_lookupStep
    intro v hb hact n
    have hless := Scope.unvisited_enter_lt hb hact
    exact ih (by omega) n

end Same

theorem lookupWithin_eq_iterate (depth : Nat) :
    lookupWithin depth =
      lookupStep^[depth] fun name => throw (.fault (.circularReference name)) := by
  induction depth with
  | zero => rfl
  | succ depth ih => rw [Function.iterate_succ_apply', ← ih, lookupWithin_succ]

/-- The bindings of a table as a scope that is busy with the same names. -/
def busyScope (t : SymbolTable) : Scope :=
  { t.scope with active := t.names.filter fun n => t.progress? n = some .resolving }

theorem mirrors_busyScope (t : SymbolTable) : t.Mirrors t.busyScope := by
  constructor
  · intro n
    exact binding?_scope t n
  · intro n
    have hname : t.progress? n = some .resolving → n ∈ t.names := by
      intro h
      obtain ⟨y, hy, -⟩ := Option.map_eq_some_iff.mp h
      rw [← name_of_find? hy]
      exact List.mem_map_of_mem (List.mem_of_find?_eq_some hy)
    simpa [busyScope] using hname

theorem unvisited_busyScope_lt (t : SymbolTable) : t.busyScope.unvisited < t.size + 1 := by
  have hle := t.busyScope.unvisited_le
  have hlength : t.busyScope.bindings.length = t.size := by simp [busyScope, scope, size]
  omega

theorem run_lookup (t : SymbolTable) (name : String) :
    (lookup name).run t = (lookupWithin (t.size + 1) name).run t := by
  rw [lookup, Attempt.run_bind_ok (Attempt.run_get t)]

theorem same_lookupWithin {s : Scope} {depth depth' : Nat} (hs : s.unvisited < depth)
    (hle : depth ≤ depth') (name : String) :
    Same s (lookupWithin depth name) (lookupWithin depth' name) := by
  obtain ⟨more, rfl⟩ := Nat.exists_eq_add_of_le hle
  rw [lookupWithin_eq_iterate, lookupWithin_eq_iterate, Function.iterate_add_apply]
  exact same_iterate_lookupStep _ _ hs name

/-- A look-up takes its depth from the table; any depth that the bindings cannot fill will do. -/
theorem same_lookup {s : Scope} {depth : Nat} (hs : s.unvisited < depth) (name : String) :
    Same s (lookupWithin depth name) (lookup name) := by
  intro t hm
  rw [run_lookup]
  rcases Nat.le_total depth (t.size + 1) with hle | hle
  · exact same_lookupWithin hs hle name t hm
  · obtain ⟨heq, honly⟩ :=
      same_lookupWithin (unvisited_busyScope_lt t) hle name t (mirrors_busyScope t)
    rw [← heq]
    exact ⟨rfl, honly⟩

/-- Look-ups in a table nest no deeper than one level more than it has symbols, also where some of
them are being evaluated already. -/
theorem unrolls_lookup (t : SymbolTable) (name : String) :
    Unrolls lookupStep lookup (t.size + 1) name t := by
  have hroom := unvisited_busyScope_lt t
  have hmirrors := mirrors_busyScope t
  constructor
  · have hstep : Same t.busyScope (lookupStep (lookupWithin t.size) name)
        (lookupStep lookup name) := by
      apply same_lookupStep
      intro v hb hact n
      have hless := Scope.unvisited_enter_lt hb hact
      exact same_lookup (by omega) n
    rw [run_lookup, lookupWithin_succ]
    exact (hstep t hmirrors).1
  · intro deeper
    rw [run_lookup, lookupWithin_eq_iterate]
    exact (same_iterate_lookupStep _ _ hroom name t hmirrors).1

/-- Whether it succeeds or fails, a look-up leaves no other trace than results. -/
theorem onlyResolves_lookup (t : SymbolTable) (name : String) :
    t.OnlyResolves ((lookup name).run t).2 := by
  rw [run_lookup]
  exact (same_lookupWithin (unvisited_busyScope_lt t) (Nat.le_refl _) name t
    (mirrors_busyScope t)).2

end SymbolTable

end Eleven

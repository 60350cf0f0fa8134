import Eleven.Lazy.SymbolTable
import Eleven.Proofs.Lazy.Scope

/-! Look-ups that keep their results agree with look-ups that do not. -/
namespace Eleven

/-- A symbol as it was defined, before any evaluation. -/
def Symbol.fresh (s : Symbol) : Symbol := { s with progress := .pending }

namespace SymbolTable

def binding? (t : SymbolTable) (name : String) : Option Lazy := (t.find? name).map (·.value)

def progress? (t : SymbolTable) (name : String) : Option Progress :=
  (t.find? name).map (·.progress)

def IsResolved (t : SymbolTable) (name : String) (d : Datum) : Prop :=
  t.progress? name = some (.resolved d)

/-- The definitions, without what is known about their values. -/
def definitions (t : SymbolTable) : List Symbol := t.symbols.map Symbol.fresh

theorem name_of_find? {t : SymbolTable} {name : String} {s : Symbol} (h : t.find? name = some s) :
    s.name = name := by simpa using List.find?_some h

theorem find?_mark (t : SymbolTable) (name n : String) (p : Progress) :
    (t.mark name p).find? n =
      (t.find? n).map fun s => if s.name == name then { s with progress := p } else s := by
  rw [mark, find?, List.find?_map, find?]
  congr 2
  funext s
  by_cases hs : s.name = name <;> simp [hs]

theorem binding?_mark (t : SymbolTable) (name n : String) (p : Progress) :
    (t.mark name p).binding? n = t.binding? n := by
  rw [binding?, find?_mark, Option.map_map, binding?]
  congr 1
  funext s
  by_cases hs : s.name = name <;> simp [hs]

theorem progress?_mark_self {t : SymbolTable} {name : String} {s : Symbol}
    (h : t.find? name = some s) (p : Progress) : (t.mark name p).progress? name = some p := by
  simp [progress?, find?_mark, h, name_of_find? h]

theorem progress?_mark_of_ne {t : SymbolTable} {name n : String} (h : n ≠ name) (p : Progress) :
    (t.mark name p).progress? n = t.progress? n := by
  rw [progress?, find?_mark, progress?]
  cases hf : t.find? n with
  | none => rfl
  | some s => simp [name_of_find? hf, h]

theorem definitions_mark (t : SymbolTable) (name : String) (p : Progress) :
    (t.mark name p).definitions = t.definitions := by
  rw [definitions, mark, List.map_map, definitions]
  refine List.map_congr_left fun s _ => ?_
  by_cases hs : s.name = name <;> simp [Symbol.fresh, hs]

theorem binding?_eq_of_definitions {t t' : SymbolTable} (h : t'.definitions = t.definitions) :
    t'.binding? = t.binding? := by
  have hfresh : ∀ u : SymbolTable, u.binding? = fun n =>
      (u.definitions.find? (·.name == n)).map (·.value) := by
    intro u
    funext n
    rw [definitions, List.find?_map, Option.map_map]
    rfl
  rw [hfresh t', h, ← hfresh t]

/-- The environment gives every resolved symbol its result. -/
def AgreesWith (t : SymbolTable) (env : Env) : Prop := ∀ n d, t.IsResolved n d → env n = .ok d

/-- What evaluation may do to a table: results are added, and nothing else changes. -/
structure Grows (t t' : SymbolTable) : Prop where
  definitions : t'.definitions = t.definitions
  resolved : ∀ n d, t.IsResolved n d → t'.IsResolved n d

theorem Grows.refl (t : SymbolTable) : t.Grows t := ⟨rfl, fun _ _ h => h⟩

theorem Grows.trans {t u w : SymbolTable} (h : t.Grows u) (h' : u.Grows w) : t.Grows w :=
  ⟨h'.definitions.trans h.definitions, fun n d hn => h'.resolved n d (h.resolved n d hn)⟩

theorem AgreesWith.of_grows {t t' : SymbolTable} {env : Env} (h : t'.AgreesWith env)
    (hg : t.Grows t') : t.AgreesWith env := fun n d hn => h n d (hg.resolved n d hn)

/-- The scope binds what the table binds, and the names being evaluated are the same. -/
structure Mirrors (t : SymbolTable) (s : Scope) : Prop where
  binding : ∀ n, s.binding? n = t.binding? n
  active : ∀ n, n ∈ s.active ↔ t.progress? n = some .resolving

/-- Results can be relied on: a definition comes to its result wherever the other results hold, and
a scope with these bindings comes to it too, unless it is busy with a resolved name. -/
structure Sound (t : SymbolTable) : Prop where
  settled : ∀ n v d, t.binding? n = some v → t.IsResolved n d →
    ∀ env, t.AgreesWith env → v.value env = .ok d
  backed : ∀ n d, t.IsResolved n d → ∀ (s : Scope) (k : Nat),
    (∀ m v, t.binding? m = some v → s.binding? m = some v) →
    (∀ m ∈ s.active, ∀ d', ¬ t.IsResolved m d') → s.unvisited < k → s.env k n = .ok d

theorem Sound.agreesWith {t : SymbolTable} (hs : t.Sound) {s : Scope} (hm : t.Mirrors s) {k : Nat}
    (hk : s.unvisited < k) : t.AgreesWith (s.env k) := by
  intro n d hn
  refine hs.backed n d hn s k (fun m v h => (hm.binding m).trans h) ?_ hk
  intro m hma d' hmd
  have hres := (hm.active m).mp hma
  rw [IsResolved, hres] at hmd
  cases hmd

/-- A computation over the table agrees with one over environments: its success is a success in
every environment that agrees with the table it leaves, its failure is the one in the scope. -/
def Tracks (s : Scope) (k : Nat) {α : Type} (a : Attempt SymbolTable α) (b : Attempt Env α) :
    Prop :=
  b.Inert ∧
    ∀ t, t.Mirrors s → t.Sound → ∃ r t', a.run t = (r, t') ∧ t'.Mirrors s ∧ t'.Sound ∧
      t.Grows t' ∧ (∀ x, r = .ok x → ∀ env, t'.AgreesWith env → b.outcome env = .ok x) ∧
      ∀ e, r = .error e → b.outcome (s.env k) = .error e

theorem Tracks.lift (s : Scope) (k : Nat) {α : Type} (e : Except Failure α) :
    Tracks s k (liftM e) (liftM e) :=
  ⟨fun _ => rfl, fun t hm hs =>
    ⟨e, t, rfl, hm, hs, .refl t, fun _ h _ _ => h, fun _ h => h⟩⟩

theorem Tracks.bind {s : Scope} {k : Nat} (hk : s.unvisited < k) {α β : Type}
    {a : Attempt SymbolTable α} {b : Attempt Env α} {f : α → Attempt SymbolTable β}
    {g : α → Attempt Env β} (hab : Tracks s k a b) (hfg : ∀ x, Tracks s k (f x) (g x)) :
    Tracks s k (a >>= f) (b >>= g) := by
  refine ⟨hab.1.bind fun x => (hfg x).1, ?_⟩
  intro t hm hs
  obtain ⟨r, t₁, hrun, hm₁, hs₁, hg₁, hok₁, herr₁⟩ := hab.2 t hm hs
  cases r with
  | error e =>
    refine ⟨.error e, t₁, Attempt.run_bind_error hrun f, hm₁, hs₁, hg₁, by simp, ?_⟩
    rintro _ ⟨⟩
    exact hab.1.outcome_bind_error (herr₁ e rfl) g
  | ok x =>
    obtain ⟨r, t₂, hrun₂, hm₂, hs₂, hg₂, hok₂, herr₂⟩ := (hfg x).2 t₁ hm₁ hs₁
    refine ⟨r, t₂, (Attempt.run_bind_ok hrun f).trans hrun₂, hm₂, hs₂, hg₁.trans hg₂, ?_, ?_⟩
    · intro y hy env henv
      rw [hab.1.outcome_bind_ok (hok₁ x rfl env (henv.of_grows hg₂))]
      exact hok₂ y hy env henv
    · intro e he
      rw [hab.1.outcome_bind_ok (hok₁ x rfl (s.env k) (hs₁.agreesWith hm₁ hk))]
      exact herr₂ e he

theorem AgreesWith.of_mark {t : SymbolTable} {name : String} {p : Progress} {env : Env}
    (hn : ∀ d, ¬ t.IsResolved name d) (h : (t.mark name p).AgreesWith env) : t.AgreesWith env := by
  intro n d hnd
  have hne : n ≠ name := fun hnn => hn d (hnn ▸ hnd)
  exact h n d ((progress?_mark_of_ne hne p).trans hnd)

/-- Taking a mark that is no result off or putting one on keeps what is known. -/
theorem Sound.mark {t : SymbolTable} (hs : t.Sound) {name : String} {p : Progress}
    (hn : ∀ d, ¬ t.IsResolved name d) (hp : ∀ d, p ≠ .resolved d) : (t.mark name p).Sound := by
  have hres : ∀ n d, (t.mark name p).IsResolved n d ↔ t.IsResolved n d := by
    intro n d
    by_cases hnn : n = name
    · subst hnn
      refine ⟨fun h => absurd h ?_, fun h => absurd h (hn d)⟩
      rw [IsResolved]
      cases hf : t.find? n with
      | none => simp [progress?, find?_mark, hf]
      | some s =>
        rw [progress?_mark_self hf]
        simpa using hp d
    · rw [IsResolved, progress?_mark_of_ne hnn, IsResolved]
  constructor
  · intro n v d hv hnd env henv
    rw [binding?_mark] at hv
    exact hs.settled n v d hv ((hres n d).mp hnd) env (henv.of_mark hn)
  · intro n d hnd s k hb hact hk
    refine hs.backed n d ((hres n d).mp hnd) s k ?_ ?_ hk
    · intro m v hm
      exact hb m v ((binding?_mark t name m p).trans hm)
    · intro m hm d' hmd
      exact hact m hm d' ((hres m d').mpr hmd)

/-- A result found for a name under evaluation can be relied on. -/
theorem Sound.mark_resolved {t : SymbolTable} (hs : t.Sound) {name : String} {v : Lazy} {d : Datum}
    (hb : t.binding? name = some v) (hn : ∀ d', ¬ t.IsResolved name d')
    (hv : ∀ env, t.AgreesWith env → v.value env = .ok d) :
    (t.mark name (.resolved d)).Sound := by
  have hof : ∀ {n d'}, n ≠ name → (t.mark name (.resolved d)).IsResolved n d' →
      t.IsResolved n d' := fun hne h => (progress?_mark_of_ne hne _).symm.trans h
  have hself : ∀ {d'}, (t.mark name (.resolved d)).IsResolved name d' → d' = d := by
    intro d' h
    obtain ⟨s, hf, -⟩ := Option.map_eq_some_iff.mp hb
    rw [IsResolved, progress?_mark_self hf] at h
    cases h
    rfl
  constructor
  · intro n w d' hw hnd env henv
    rw [binding?_mark] at hw
    by_cases hnn : n = name
    · subst hnn
      rw [hw] at hb
      cases hb
      rw [hself hnd]
      exact hv env (henv.of_mark hn)
    · exact hs.settled n w d' hw (hof hnn hnd) env (henv.of_mark hn)
  · intro n d' hnd s k hbs hact hk
    have hbs' : ∀ m w, t.binding? m = some w → s.binding? m = some w :=
      fun m w hm => hbs m w ((binding?_mark t name m _).trans hm)
    have hact' : ∀ m ∈ s.active, ∀ d', ¬ t.IsResolved m d' := by
      intro m hm d'' hmd
      have hne : m ≠ name := fun h => hn d'' (h ▸ hmd)
      exact hact m hm d'' ((progress?_mark_of_ne hne _).trans hmd)
    by_cases hnn : n = name
    · subst hnn
      rw [hself hnd]
      have hna : n ∉ s.active := fun h => hact n h d' hnd
      have hlt := Scope.unvisited_enter_lt (hbs' n v hb) hna
      obtain ⟨k, rfl⟩ : ∃ m, k = m + 1 := ⟨k - 1, by omega⟩
      rw [Scope.env_succ, hbs' n v hb]
      simp only [hna, if_false]
      refine hv _ fun m w hm => hs.backed m w hm _ k hbs' ?_ (by omega)
      intro m' hm'
      rcases List.mem_cons.mp hm' with rfl | hm'
      · exact hn
      · exact hact' m' hm'
    · exact hs.backed n d' (hof hnn hnd) s k hbs' hact' hk

theorem Mirrors.enter {t : SymbolTable} {s : Scope} (hm : t.Mirrors s) {name : String}
    {sym : Symbol} (hf : t.find? name = some sym) :
    (t.mark name .resolving).Mirrors (s.enter name) := by
  constructor
  · intro n
    exact (hm.binding n).trans (binding?_mark t name n _).symm
  · intro n
    by_cases hn : n = name
    · subst hn
      simp [Scope.enter, progress?_mark_self hf]
    · rw [progress?_mark_of_ne hn, ← hm.active n]
      simp [Scope.enter, hn]

theorem Mirrors.leave {t : SymbolTable} {s : Scope} {name : String}
    (hm : t.Mirrors (s.enter name)) (hname : name ∉ s.active) {p : Progress}
    (hp : p ≠ .resolving) : (t.mark name p).Mirrors s := by
  constructor
  · intro n
    exact (hm.binding n).trans (binding?_mark t name n p).symm
  · intro n
    by_cases hn : n = name
    · subst hn
      refine ⟨fun h => absurd h hname, fun h => absurd h ?_⟩
      obtain ⟨sym, hf, -⟩ := Option.map_eq_some_iff.mp ((hm.active n).mp (by simp [Scope.enter]))
      simpa [progress?_mark_self hf] using hp
    · rw [progress?_mark_of_ne hn, ← hm.active n]
      simp [Scope.enter, hn]

theorem run_lookupWithin_succ {t : SymbolTable} {name : String} {sym : Symbol} (depth : Nat)
    (hf : t.find? name = some sym) (hp : sym.progress = .pending) :
    (lookupWithin (depth + 1) name).run t =
      (resolving name (sym.value.eval (lookupWithin depth))).run t := by
  rw [lookupWithin, Attempt.run_bind_ok (Attempt.run_get t), hf]
  simp only [hp]

/-- A look-up in the table agrees with one in a scope that mirrors it, at every nesting: the induction
is on the room for nested look-ups, and evaluating a pending symbol enters it on both sides. -/
theorem tracks_lookupWithin {k : Nat} {s : Scope} (hk : s.unvisited < k) (name : String) :
    Tracks s k (lookupWithin k name) (Env.look name) := by
  induction k generalizing s name with
  | zero => omega
  | succ k ih =>
    refine ⟨fun _ => rfl, fun t hm hs => ?_⟩
    have hbind := hm.binding name
    cases hf : t.find? name with
    | none =>
      refine ⟨.error (.fault (.undefinedSymbol name)), t, ?_, hm, hs, .refl t, by simp, ?_⟩
      · rw [lookupWithin, Attempt.run_bind_ok (Attempt.run_get t), hf]
        rfl
      · rintro _ ⟨⟩
        rw [binding?, hf] at hbind
        change s.env (k + 1) name = _
        rw [Scope.env_succ, hbind]
        rfl
    | some sym =>
      have hb : t.binding? name = some sym.value := by rw [binding?, hf]; rfl
      have hprog : t.progress? name = some sym.progress := by rw [progress?, hf]; rfl
      rw [hb] at hbind
      cases hp : sym.progress with
      | resolved d =>
        refine ⟨.ok d, t, ?_, hm, hs, .refl t, ?_, by simp⟩
        · rw [lookupWithin, Attempt.run_bind_ok (Attempt.run_get t), hf]
          simp only [hp]
          rfl
        · rintro _ ⟨⟩ env henv
          exact henv name d (by rw [IsResolved, hprog, hp])
      | resolving =>
        refine ⟨.error (.fault (.circularReference name)), t, ?_, hm, hs, .refl t, by simp, ?_⟩
        · rw [lookupWithin, Attempt.run_bind_ok (Attempt.run_get t), hf]
          simp only [hp]
          rfl
        · rintro _ ⟨⟩
          have hact : name ∈ s.active := (hm.active name).mpr (by rw [hprog, hp])
          change s.env (k + 1) name = _
          rw [Scope.env_succ, hbind]
          simp only [hact, if_true]
      | pending =>
        have hnot : ∀ d, ¬ t.IsResolved name d := by
          intro d h
          rw [IsResolved, hprog, hp] at h
          cases h
        have hna : name ∉ s.active := by
          rw [hm.active name, hprog, hp]
          simp
        have hlt : (s.enter name).unvisited < k := by
          have := Scope.unvisited_enter_lt hbind hna
          omega
        have htr := Lazy.eval_related (R := Tracks (s.enter name) k) (Tracks.lift _ _)
          (Tracks.bind hlt) (ih hlt) sym.value
        obtain ⟨r, u, hrun, hmu, hsu, hgu, hok, herr⟩ := htr.2 (t.mark name .resolving)
          (hm.enter hf) (hs.mark hnot (by simp))
        have hbu : u.binding? name = some sym.value := by
          rw [binding?_eq_of_definitions hgu.definitions, binding?_mark, hb]
        have hnu : ∀ d, ¬ u.IsResolved name d := by
          intro d h
          have hres := (hmu.active name).mp (by simp [Scope.enter])
          rw [IsResolved, hres] at h
          cases h
        have hgrow : ∀ p, t.Grows (u.mark name p) := by
          intro p
          refine ⟨?_, fun n d hn => ?_⟩
          · rw [definitions_mark, hgu.definitions, definitions_mark]
          · have hne : n ≠ name := fun h => hnot d (h ▸ hn)
            rw [IsResolved, progress?_mark_of_ne hne]
            exact hgu.resolved n d ((progress?_mark_of_ne hne _).trans hn)
        have hstep : (lookupWithin (k + 1) name).run t = (r, u.mark name (progressAfter r)) := by
          rw [run_lookupWithin_succ k hf hp, resolving, Attempt.run_of, hrun]
        cases r with
        | ok d =>
          refine ⟨.ok d, _, hstep, hmu.leave hna (by simp [progressAfter]),
            hsu.mark_resolved hbu hnu (hok d rfl), hgrow _, ?_, by simp⟩
          rintro _ ⟨⟩ env henv
          obtain ⟨su, hfu, -⟩ := Option.map_eq_some_iff.mp hbu
          exact henv name d (progress?_mark_self hfu _)
        | error e =>
          refine ⟨.error e, _, hstep, hmu.leave hna (by simp [progressAfter]),
            hsu.mark hnu (by simp [progressAfter]), hgrow _, by simp, ?_⟩
          rintro _ ⟨⟩
          change s.env (k + 1) name = _
          rw [Scope.env_succ, hbind]
          simp only [hna, if_false]
          exact herr e rfl

end SymbolTable

end Eleven

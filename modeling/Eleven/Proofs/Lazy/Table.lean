import Eleven.Proofs.Lazy.Memo
import Mathlib.Tactic.SplitIfs

/-! Symbol tables between evaluations: what each call keeps, and what look-ups come to. -/
namespace Eleven

namespace Scope

/-- Only what the names are bound to matters, not the order in which they were bound. -/
theorem env_congr {s s' : Scope} (hb : ∀ n, s.binding? n = s'.binding? n)
    (ha : s.active = s'.active) (k : Nat) : s.env k = s'.env k := by
  induction k generalizing s s' with
  | zero => rfl
  | succ k ih =>
    funext name
    rw [env_succ, env_succ, hb name, ha]
    cases hv : s'.binding? name with
    | none => rfl
    | some v =>
      have henter : (s.enter name).env k = (s'.enter name).env k :=
        ih hb (by simp [enter, ha])
      simp only [henter]

theorem unvisited_le (s : Scope) : s.unvisited ≤ s.bindings.length := List.length_filter_le _ _

theorem outcome_lookup (s : Scope) (name : String) :
    (lookup name).outcome s = s.env (s.bindings.length + 1) name := by
  rw [Attempt.outcome, lookup, Attempt.run_bind_ok (Attempt.run_get s), run_lookupWithin]

theorem binding?_set (s : Scope) (name : String) (v : Lazy) (n : String) :
    (s.set name v).binding? n = if n = name then some v else s.binding? n := by
  rw [binding?, set, List.lookup_cons]
  by_cases hn : n = name
  · simp [hn]
  · have hne : (n == name) = false := by simpa using hn
    simp only [hne, hn, if_false]
    rw [binding?]
    induction s.bindings with
    | nil => rfl
    | cons b rest ih =>
      by_cases hb : b.1 = name
      · have hnb : (n == b.1) = false := by simpa [hb] using hn
        have hbn : (b.1 != name) = false := by simpa using hb
        rw [List.filter_cons, hbn, List.lookup_cons, hnb]
        exact ih
      · have hbn : (b.1 != name) = true := by simpa using hb
        rw [List.filter_cons, hbn, if_pos rfl, List.lookup_cons, List.lookup_cons, ih]

end Scope

namespace SymbolTable

/-- The state of a table between calls: no evaluation is going on, and no name is defined twice. -/
structure Quiet (t : SymbolTable) : Prop where
  sound : t.Sound
  idle : ∀ n, t.progress? n ≠ some .resolving
  distinct : t.names.Nodup

theorem quiet_empty : empty.Quiet := by
  refine ⟨⟨?_, ?_⟩, ?_, ?_⟩ <;> simp [empty, IsResolved, progress?, find?, names]

/-- The bindings of a table as a scope that is not busy. -/
def scope (t : SymbolTable) : Scope := ⟨t.symbols.map fun s => (s.name, s.value), []⟩

theorem binding?_scope (t : SymbolTable) (n : String) : t.scope.binding? n = t.binding? n := by
  rw [Scope.binding?, scope, binding?, find?]
  induction t.symbols with
  | nil => rfl
  | cons s rest ih =>
    rw [List.map_cons, List.lookup_cons, List.find?_cons, ih]
    by_cases hn : n = s.name
    · simp [hn]
    · have hns : (s.name == n) = false := by simpa using fun h => hn h.symm
      have hsn : (n == s.name) = false := by simpa using hn
      simp [hns, hsn]

theorem Quiet.mirrors {t : SymbolTable} (hq : t.Quiet) : t.Mirrors t.scope :=
  ⟨binding?_scope t, fun n => ⟨by simp [scope], fun h => absurd h (hq.idle n)⟩⟩

theorem unvisited_scope_lt (t : SymbolTable) : t.scope.unvisited < t.size + 1 := by
  have h := Scope.unvisited_le t.scope
  have hl : t.scope.bindings.length = t.size := by simp [scope, size]
  omega

theorem names_definitions (t : SymbolTable) : t.definitions.map (·.name) = t.names := by
  rw [definitions, List.map_map]
  rfl

theorem Mirrors.quiet {t : SymbolTable} {s : Scope} (hm : t.Mirrors s) (ha : s.active = [])
    (hs : t.Sound) (hd : t.names.Nodup) : t.Quiet :=
  ⟨hs, fun n h => by simpa [ha] using (hm.active n).mpr h, hd⟩

theorem Grows.names {t t' : SymbolTable} (hg : t.Grows t') : t'.names = t.names := by
  rw [← names_definitions, hg.definitions, names_definitions]

/-- A computation over a table leaves it quiet, and what it succeeds with holds in every
environment that agrees with the table it leaves. -/
def Reads {α : Type} (a : Attempt SymbolTable α) (b : Attempt Env α) : Prop :=
  b.Inert ∧
    ∀ t, t.Quiet → ∃ r t', a.run t = (r, t') ∧ t'.Quiet ∧ t.Grows t' ∧
      ∀ x, r = .ok x → ∀ env, t'.AgreesWith env → b.outcome env = .ok x

theorem Reads.lift {α : Type} (e : Except Failure α) : Reads (liftM e) (liftM e) :=
  ⟨fun _ => rfl, fun t hq => ⟨e, t, rfl, hq, .refl t, fun _ h _ _ => h⟩⟩

theorem Reads.bind {α β : Type} {a : Attempt SymbolTable α} {b : Attempt Env α}
    {f : α → Attempt SymbolTable β} {g : α → Attempt Env β} (hab : Reads a b)
    (hfg : ∀ x, Reads (f x) (g x)) : Reads (a >>= f) (b >>= g) := by
  refine ⟨hab.1.bind fun x => (hfg x).1, fun t hq => ?_⟩
  obtain ⟨r, t₁, hrun, hq₁, hg₁, hok₁⟩ := hab.2 t hq
  cases r with
  | error e => exact ⟨.error e, t₁, Attempt.run_bind_error hrun f, hq₁, hg₁, by simp⟩
  | ok x =>
    obtain ⟨r, t₂, hrun₂, hq₂, hg₂, hok₂⟩ := (hfg x).2 t₁ hq₁
    refine ⟨r, t₂, (Attempt.run_bind_ok hrun f).trans hrun₂, hq₂, hg₁.trans hg₂, ?_⟩
    intro y hy env henv
    rw [hab.1.outcome_bind_ok (hok₁ x rfl env (henv.of_grows hg₂))]
    exact hok₂ y hy env henv

theorem reads_lookup (name : String) : Reads (lookup name) (Env.look name) := by
  refine ⟨fun _ => rfl, fun t hq => ?_⟩
  obtain ⟨r, t', hrun, hm, hs, hg, hok, -⟩ :=
    (tracks_lookupWithin (unvisited_scope_lt t) name).2 t hq.mirrors hq.sound
  refine ⟨r, t', ?_, hm.quiet rfl hs (hg.names ▸ hq.distinct), hg, hok⟩
  rw [lookup, Attempt.run_bind_ok (Attempt.run_get t), hrun]

theorem reads_eval (v : Lazy) : Reads (v.eval lookup) (v.eval Env.look) :=
  Lazy.eval_related (R := Reads) Reads.lift Reads.bind reads_lookup v

theorem Quiet.outcome_lookup {t : SymbolTable} (hq : t.Quiet) (name : String) :
    (lookup name).outcome t = t.scope.env (t.size + 1) name := by
  obtain ⟨r, t', hrun, hm, hs, -, hok, herr⟩ :=
    (tracks_lookupWithin (unvisited_scope_lt t) name).2 t hq.mirrors hq.sound
  rw [Attempt.outcome, lookup, Attempt.run_bind_ok (Attempt.run_get t), hrun]
  cases r with
  | ok d => exact (hok d rfl _ (hs.agreesWith hm (unvisited_scope_lt t))).symm
  | error e => exact (herr e rfl).symm

/-- A quiet table and an idle scope of the same bindings give every name the same outcome. -/
theorem Quiet.outcome_lookup_eq {t : SymbolTable} (hq : t.Quiet) {s : Scope}
    (hb : ∀ n, s.binding? n = t.binding? n) (ha : s.active = []) (name : String) :
    (lookup name).outcome t = (Scope.lookup name).outcome s := by
  have hroom : t.scope.env (t.size + 1) = t.scope.env (t.size + s.bindings.length + 1) :=
    Scope.env_eq_of_unvisited_lt (unvisited_scope_lt t) (by have := unvisited_scope_lt t; omega)
  have hroom' : s.env (s.bindings.length + 1) = s.env (t.size + s.bindings.length + 1) :=
    Scope.env_eq_of_unvisited_lt (by have := s.unvisited_le; omega)
      (by have := s.unvisited_le; omega)
  rw [hq.outcome_lookup, Scope.outcome_lookup, hroom, hroom']
  exact congrFun (Scope.env_congr (fun n => (binding?_scope t n).trans (hb n).symm) ha.symm _) name

/-- The results found so far; other names have none. -/
def results (t : SymbolTable) : Env := fun n =>
  match t.progress? n with
  | some (.resolved d) => .ok d
  | _ => .error (.fault (.undefinedSymbol n))

theorem results_eq_ok {t : SymbolTable} {n : String} {d : Datum} :
    t.results n = .ok d ↔ t.IsResolved n d := by
  rw [results, IsResolved]
  rcases t.progress? n with _ | _ | _ | d' <;> simp

theorem agreesWith_results (t : SymbolTable) : t.AgreesWith t.results :=
  fun _ _ h => results_eq_ok.mpr h

theorem run_resolveSymbol (s : Symbol) {t : SymbolTable} (hq : t.Quiet) :
    ∃ r t', (resolveSymbol s).run t = (r, t') ∧ t'.Quiet ∧ t.Grows t' ∧
      ∀ n, r = .ok n → t'.IsResolved s.name (.int n) := by
  have hread : Reads ((Lazy.symbol s.name).resolveInt lookup)
      ((Lazy.symbol s.name).resolveInt Env.look) :=
    (reads_eval (.symbol s.name)).bind fun d => Reads.lift d.expectInt
  obtain ⟨r, t', hrun, hq', hg, hok⟩ := hread.2 t hq
  refine ⟨_, t', by rw [resolveSymbol, Attempt.run_mapFailure, hrun], hq', hg, ?_⟩
  intro n hn
  cases r with
  | error e => cases hn
  | ok m =>
    cases hn
    have hval := hok n rfl t'.results (agreesWith_results t')
    rw [Lazy.outcome_resolveInt] at hval
    rw [← results_eq_ok]
    obtain ⟨d, hd, hdn⟩ := bind_eq_ok.mp hval
    cases d with
    | int k => cases hdn; exact hd
    | _ => cases hdn

/-- What resolving one symbol after the other keeps, and what it comes to if it succeeds. -/
theorem run_resolveEach (ys : List Symbol) {t : SymbolTable} (hq : t.Quiet) :
    ∃ r t', (resolveEach ys).run t = (r, t') ∧ t'.Quiet ∧ t.Grows t' ∧
      (r = .ok () → ∀ y ∈ ys, ∃ n, t'.IsResolved y.name (.int n)) := by
  induction ys generalizing t with
  | nil => exact ⟨.ok (), t, rfl, hq, .refl t, by simp⟩
  | cons y ys ih =>
    obtain ⟨r, t₁, hrun, hq₁, hg₁, hok₁⟩ := run_resolveSymbol y hq
    cases r with
    | error e =>
      exact ⟨.error e, t₁, by rw [resolveEach, Attempt.run_bind_error hrun], hq₁, hg₁, by simp⟩
    | ok n =>
      obtain ⟨r, t₂, hrun₂, hq₂, hg₂, hok₂⟩ := ih hq₁
      refine ⟨r, t₂, by rw [resolveEach, Attempt.run_bind_ok hrun, hrun₂], hq₂, hg₁.trans hg₂, ?_⟩
      rintro rfl z hz
      rcases List.mem_cons.mp hz with rfl | hz
      · exact ⟨n, hg₂.resolved _ _ (hok₁ n rfl)⟩
      · exact hok₂ rfl z hz

theorem run_resolveAll {t : SymbolTable} (hq : t.Quiet) :
    ∃ r t', resolveAll.run t = (r, t') ∧ t'.Quiet ∧ t.Grows t' ∧
      (r = .ok () → ∀ y ∈ t.symbols, ∃ n, t'.IsResolved y.name (.int n)) := by
  obtain ⟨r, t', hrun, h⟩ := run_resolveEach t.symbols hq
  exact ⟨r, t', by rw [resolveAll, Attempt.run_bind_ok (Attempt.run_get t), hrun], h⟩

theorem names_push (t : SymbolTable) (s : Symbol) : (t.push s).names = t.names ++ [s.name] := by
  rw [names, push, List.map_append]
  rfl

theorem find?_push {t : SymbolTable} (s : Symbol) (hs : t.find? s.name = none) (n : String) :
    (t.push s).find? n = if n = s.name then some s else t.find? n := by
  rw [push, find?, List.find?_append]
  by_cases hn : n = s.name
  · subst hn
    rw [find?] at hs
    simp [hs]
  · have hne : (s.name == n) = false := by simpa using fun h => hn h.symm
    simp [hn, hne, find?]

/-- A new definition is pending and leaves all others as they are. -/
theorem define_eq_ok {t t' : SymbolTable} {name : String} {v : Lazy} {pos : Position}
    (h : t.define name v pos = .ok t') :
    t.find? name = none ∧ t' = t.push ⟨name, v, pos, .pending⟩ := by
  unfold define at h
  split_ifs at h with hhas
  · cases h
    simpa [has] using hhas

theorem isResolved_define {t t' : SymbolTable} {name : String} {v : Lazy} {pos : Position}
    (h : t.define name v pos = .ok t') (n : String) (d : Datum) :
    t'.IsResolved n d ↔ t.IsResolved n d := by
  obtain ⟨hfree, rfl⟩ := define_eq_ok h
  rw [IsResolved, progress?, find?_push _ hfree]
  by_cases hn : n = name
  · subst hn
    simp [IsResolved, progress?, hfree]
  · rw [if_neg hn]
    rfl

theorem binding?_define {t t' : SymbolTable} {name : String} {v : Lazy} {pos : Position}
    (h : t.define name v pos = .ok t') (n : String) :
    t'.binding? n = if n = name then some v else t.binding? n := by
  obtain ⟨hfree, rfl⟩ := define_eq_ok h
  rw [binding?, find?_push _ hfree]
  by_cases hn : n = name
  · simp [hn]
  · rw [if_neg hn, if_neg hn]
    rfl

theorem binding?_define_of_some {t t' : SymbolTable} {name : String} {v : Lazy} {pos : Position}
    (h : t.define name v pos = .ok t') {n : String} {w : Lazy} (hw : t.binding? n = some w) :
    t'.binding? n = some w := by
  have hn : n ≠ name := by
    rintro rfl
    simp [binding?, (define_eq_ok h).1] at hw
  rw [binding?_define h, if_neg hn, hw]

theorem Quiet.define {t t' : SymbolTable} (hq : t.Quiet) {name : String} {v : Lazy}
    {pos : Position} (h : t.define name v pos = .ok t') : t'.Quiet := by
  have hres := isResolved_define h
  have hbinding := binding?_define h
  have hbound := fun n w => binding?_define_of_some (n := n) (w := w) h
  obtain ⟨hfree, rfl⟩ := define_eq_ok h
  refine ⟨⟨?_, ?_⟩, ?_, ?_⟩
  · intro n w d hw hnd env henv
    have hn : n ≠ name := by
      rintro rfl
      rw [hres] at hnd
      simp [IsResolved, progress?, hfree] at hnd
    rw [hbinding, if_neg hn] at hw
    refine hq.sound.settled n w d hw ((hres n d).mp hnd) env fun m e hm => ?_
    exact henv m e ((hres m e).mpr hm)
  · intro n d hnd s k hb hact hk
    refine hq.sound.backed n d ((hres n d).mp hnd) s k ?_ ?_ hk
    · exact fun m w hm => hb m w (hbound m w hm)
    · exact fun m hm e hme => hact m hm e ((hres m e).mpr hme)
  · intro n hn
    rw [progress?, find?_push _ hfree] at hn
    split_ifs at hn
    · cases hn
    · exact hq.idle n hn
  · have hnew : name ∉ t.names := by
      intro hmem
      obtain ⟨s, hs, hsn⟩ := List.mem_map.mp hmem
      have := List.find?_eq_none.mp hfree s hs
      simp [hsn] at this
    rw [names_push, List.nodup_append]
    exact ⟨hq.distinct, by simp, by simpa [names] using fun s hs h => hnew (List.mem_map.mpr ⟨s, hs, h⟩)⟩

theorem Quiet.find?_eq {t : SymbolTable} (hq : t.Quiet) {s : Symbol} (hs : s ∈ t.symbols) :
    t.find? s.name = some s := by
  obtain ⟨before, after, hsplit⟩ := List.append_of_mem hs
  have hd := hq.distinct
  rw [names, hsplit, List.map_append, List.map_cons, List.nodup_append] at hd
  rw [find?, hsplit, List.find?_append, List.find?_eq_none.mpr, Option.none_or,
    List.find?_cons_of_pos]
  · simp
  · intro y hy hne
    have hys : y.name = s.name := by simpa using hne
    exact hd.2.2 y.name (List.mem_map.mpr ⟨y, hy, rfl⟩) s.name (by simp) hys

theorem Quiet.progress_ne_resolving {t : SymbolTable} (hq : t.Quiet) {s : Symbol}
    (hs : s ∈ t.symbols) : s.progress ≠ .resolving := by
  intro hp
  refine hq.idle s.name ?_
  rw [progress?, hq.find?_eq hs, Option.map_some, hp]

section Further

variable {y : Symbol} {α β : Type}

/-- What `a` succeeds with, `b` succeeds with where `y` is defined too, and leaves `y` as it is. -/
def Outlasts (y : Symbol) {α : Type} (a b : Attempt SymbolTable α) : Prop :=
  ∀ t x t', t.find? y.name = none → a.run t = (.ok x, t') →
    t'.find? y.name = none ∧ b.run (t.push y) = (.ok x, t'.push y)

theorem Outlasts.lift (e : Except Failure α) : Outlasts y (liftM e) (liftM e) := by
  intro t x t' hfree hrun
  cases hrun
  exact ⟨hfree, rfl⟩

theorem Outlasts.bind {a b : Attempt SymbolTable α} {f g : α → Attempt SymbolTable β}
    (hab : Outlasts y a b) (hfg : ∀ x, Outlasts y (f x) (g x)) :
    Outlasts y (a >>= f) (b >>= g) := by
  intro t z t'' hfree hrun
  obtain ⟨x, t', hx, hz⟩ := Attempt.run_bind_eq_ok.mp hrun
  obtain ⟨hfree', hx'⟩ := hab t x t' hfree hx
  rw [Attempt.run_bind_ok hx']
  exact hfg x t' z t'' hfree' hz

theorem mark_push {name : String} (h : y.name ≠ name) (p : Progress) (t : SymbolTable) :
    (t.push y).mark name p = (t.mark name p).push y := by
  simp [mark, push, h]

theorem find?_mark_eq_none {t : SymbolTable} {n : String} (h : t.find? n = none) (name : String)
    (p : Progress) : (t.mark name p).find? n = none := by
  rw [find?_mark, h]
  rfl

theorem Outlasts.resolving {name : String} {a b : Attempt SymbolTable Datum}
    (hab : Outlasts y a b) (hname : y.name ≠ name) :
    Outlasts y (resolving name a) (resolving name b) := by
  intro t d t' hfree hrun
  rcases ha : a.run (t.mark name .resolving) with ⟨r, t₁⟩
  rw [SymbolTable.resolving, Attempt.run_of, ha] at hrun
  cases hrun
  obtain ⟨hfree₁, hb⟩ := hab _ d t₁ (find?_mark_eq_none hfree name _) ha
  refine ⟨find?_mark_eq_none hfree₁ name _, ?_⟩
  rw [SymbolTable.resolving, Attempt.run_of, mark_push hname, hb]
  exact congrArg (Prod.mk _) (mark_push hname _ t₁)

/-- A look-up that succeeds does not miss later definitions, nor does more room change it. -/
theorem outlasts_lookupWithin {k k' : Nat} (hk : k ≤ k') (name : String) :
    Outlasts y (lookupWithin k name) (lookupWithin k' name) := by
  induction k generalizing k' name with
  | zero =>
    intro t d t' _ hrun
    cases hrun
  | succ k ih =>
    obtain ⟨k', rfl⟩ : ∃ m, k' = m + 1 := ⟨k' - 1, by omega⟩
    have heval : ∀ v : Lazy, Outlasts y (v.eval (lookupWithin k)) (v.eval (lookupWithin k')) :=
      Lazy.eval_related (R := Outlasts y) Outlasts.lift Outlasts.bind (ih (by omega))
    intro t d t' hfree hrun
    rw [lookupWithin, Attempt.run_bind_ok (Attempt.run_get t)] at hrun
    rw [lookupWithin, Attempt.run_bind_ok (Attempt.run_get _), find?_push y hfree]
    by_cases hname : name = y.name
    · rw [hname, hfree] at hrun
      cases hrun
    · rw [if_neg hname]
      cases hf : t.find? name with
      | none =>
        rw [hf] at hrun
        cases hrun
      | some s =>
        rw [hf] at hrun
        dsimp only at hrun ⊢
        cases hp : s.progress with
        | resolved d' =>
          rw [hp] at hrun
          cases hrun
          exact ⟨hfree, rfl⟩
        | resolving =>
          rw [hp] at hrun
          cases hrun
        | pending =>
          rw [hp] at hrun
          exact (heval s.value).resolving (Ne.symm hname) t d t' hfree hrun

theorem outlasts_resolveInt (v : Lazy) :
    Outlasts y (v.resolveInt lookup) (v.resolveInt lookup) := by
  have hlook : ∀ name, Outlasts y (lookup name) (lookup name) := by
    intro name t d t' hfree hrun
    rw [lookup, Attempt.run_bind_ok (Attempt.run_get t)] at hrun
    rw [lookup, Attempt.run_bind_ok (Attempt.run_get _)]
    have hroom : t.size + 1 ≤ (t.push y).size + 1 := by simp [size, push]
    exact outlasts_lookupWithin hroom name t d t' hfree hrun
  have heval : Outlasts y (v.eval lookup) (v.eval lookup) :=
    Lazy.eval_related (R := Outlasts y) Outlasts.lift Outlasts.bind hlook v
  exact heval.bind fun d => .lift d.expectInt

end Further

end SymbolTable

end Eleven

import Eleven.Proofs.Failure.Matched
import Eleven.Proofs.Lazy.Calls
import Eleven.Proofs.Lazy.Denotation

/-! Resolving all symbols solves their definitions, in whatever order these were made. -/
namespace Eleven.SymbolTable

structure Definition where
  name : String
  value : Lazy
  position : Position

/-- The symbol that a definition makes. -/
def Definition.symbol (d : Definition) : Symbol := ⟨d.name, d.value, d.position, .pending⟩

def Definition.call (d : Definition) : Call := .define d.name d.value d.position

def Call.definition? : Call → Option Definition
  | .define name v pos => some ⟨name, v, pos⟩
  | _ => none

/-- The definitions among calls; look-ups and resolutions may stand between them. -/
def definedBy (calls : List Call) : List Definition := calls.filterMap Call.definition?

/-- Resolves all symbols and gives their integers. -/
def solve : Attempt SymbolTable (List (String × Int64)) := do
  resolveAll
  let t ← get
  pure t.values

/-- Integers for exactly the names that are defined, each the one its definition comes to when the
other names stand for theirs. -/
structure Solves (values : List (String × Int64)) (ds : List Definition) : Prop where
  names : (values.map Prod.fst).Perm (ds.map Definition.name)
  holds : ∀ d ∈ ds, ∃ n, values.lookup d.name = some n ∧
    (d.value.resolveInt Env.look).outcome (Env.ofSymbols values) = .ok n

/-- The same integer for every name, in whatever order. -/
def SameValues (xs ys : List (String × Int64)) : Prop := ∀ name, xs.lookup name = ys.lookup name

theorem sameValues_of_ofSymbols {xs ys : List (String × Int64)}
    (h : Env.ofSymbols xs = Env.ofSymbols ys) : SameValues xs ys := by
  intro name
  have hname := congrFun h name
  unfold Env.ofSymbols at hname
  cases hx : xs.lookup name with
  | none =>
    cases hy : ys.lookup name with
    | none => rfl
    | some m => simp [hx, hy] at hname
  | some n =>
    cases hy : ys.lookup name with
    | none => simp [hx, hy] at hname
    | some m => simpa [hx, hy] using hname

section Solving

variable {t t' : SymbolTable} {values : List (String × Int64)}

theorem solve_eq_ok :
    solve.outcome t = .ok values ↔ ∃ u, resolveAll.run t = (.ok (), u) ∧ u.values = values := by
  unfold Attempt.outcome solve
  rcases hrun : resolveAll.run t with ⟨r, u⟩
  cases r with
  | error e =>
    rw [Attempt.run_bind_error hrun]
    simp
  | ok x =>
    rw [Attempt.run_bind_ok hrun, Attempt.run_bind_ok (Attempt.run_get u)]
    constructor
    · intro h
      exact ⟨u, rfl, Except.ok.inj h⟩
    · rintro ⟨w, hw, rfl⟩
      cases hw
      rfl

/-- Whether all symbols can be resolved is decided by the bindings. -/
theorem Akin.resolveAll_iff (h : t.Akin t') :
    (∃ u, resolveAll.run t = (.ok (), u)) ↔ ∃ u', resolveAll.run t' = (.ok (), u') := by
  rw [h.quiet.resolveAll_eq_ok, h.quiet'.resolveAll_eq_ok, h.env_eq]
  simp only [h.binding]

theorem Akin.sameValues (h : t.Akin t') (hs : t.Settled) (hs' : t'.Settled) :
    SameValues t.values t'.values := by
  apply sameValues_of_ofSymbols
  rw [← hs.results_eq, ← hs'.results_eq, h.results_eq hs hs']

theorem Akin.solve (h : t.Akin t') : Matched SameValues (solve.outcome t) (solve.outcome t') := by
  apply Matched.of_exists_iff
  · simpa [solve_eq_ok] using h.resolveAll_iff
  · intro xs ys hx hy
    obtain ⟨u, hu, rfl⟩ := solve_eq_ok.mp hx
    obtain ⟨u', hu', rfl⟩ := solve_eq_ok.mp hy
    obtain ⟨hq, hg, hs⟩ := settled_of_resolveAll h.quiet hu
    obtain ⟨hq', hg', hs'⟩ := settled_of_resolveAll h.quiet' hu'
    exact (h.of_grows hq hq' hg hg').sameValues hs hs'

theorem Settled.names_values (hs : t.Settled) : t.values.map Prod.fst = t.names := by
  unfold values names
  have hall : ∀ s ∈ t.symbols, s.integer?.map Prod.fst = some s.name := by
    intro s hmem
    obtain ⟨n, hn⟩ := hs s hmem
    rw [Symbol.integer?, hn]
    rfl
  rw [List.map_filterMap, List.filterMap_congr hall]
  exact congrFun List.filterMap_eq_map t.symbols

/-- Once all symbols are resolved, every definition comes to the integer kept for it. -/
theorem Settled.value_binding (hs : t.Settled) (hq : t.Quiet) {name : String} {v : Lazy}
    (hb : t.binding? name = some v) :
    ∃ n, t.values.lookup name = some n ∧ v.value (Env.ofSymbols t.values) = .ok (.int n) := by
  obtain ⟨s, hfind, -⟩ := Option.map_eq_some_iff.mp hb
  obtain ⟨n, hn⟩ := hs s (List.mem_of_find?_eq_some hfind)
  have hres : t.IsResolved name (.int n) := by
    rw [IsResolved, progress?, hfind, Option.map_some, hn]
  have hvalue := hq.sound.settled name v (.int n) hb hres t.results (agreesWith_results t)
  have hname := results_eq_ok.mpr hres
  rw [hs.results_eq] at hvalue hname
  obtain ⟨m, hm, heq⟩ := Env.ofSymbols_eq_ok.mp hname
  cases heq
  exact ⟨n, hm, hvalue⟩

theorem Quiet.binding?_eq_some (hq : t.Quiet) {name : String} {v : Lazy} :
    t.binding? name = some v ↔ ∃ s ∈ t.definitions, s.name = name ∧ s.value = v := by
  constructor
  · intro h
    obtain ⟨s, hfind, rfl⟩ := Option.map_eq_some_iff.mp h
    have hname : s.name = name := name_of_find? hfind
    exact ⟨s.fresh, List.mem_map_of_mem (List.mem_of_find?_eq_some hfind), hname, rfl⟩
  · rintro ⟨s, hs, rfl, rfl⟩
    obtain ⟨y, hy, rfl⟩ := List.mem_map.mp hs
    have hfind : t.find? y.fresh.name = some y := hq.find?_eq hy
    rw [binding?, hfind]
    rfl

theorem Quiet.akin_of_perm (hq : t.Quiet) (hq' : t'.Quiet)
    (h : t'.definitions.Perm t.definitions) : t.Akin t' := by
  refine ⟨hq, hq', fun name => Option.ext fun v => ?_⟩
  rw [hq'.binding?_eq_some, hq.binding?_eq_some]
  simp only [h.mem_iff]

end Solving

section Exchange

variable {t t' : SymbolTable} (name name' : String) (v v' : Lazy) (pos pos' : Position)

/-- A definition is taken exactly if its name is not bound. -/
theorem exists_define_iff : (∃ u, t.define name v pos = .ok u) ↔ t.binding? name = none := by
  have hbound : t.binding? name = none ↔ ¬ t.has name = true := by
    rw [binding?, has, Option.map_eq_none_iff, Option.not_isSome_iff_eq_none]
  rw [hbound]
  unfold define
  split_ifs with hhas
  · simp [hhas]
  · simp [hhas]

/-- Two definitions are taken exactly if their names are distinct and not bound. -/
theorem exists_define_define_iff :
    (∃ w, (t.define name v pos >>= SymbolTable.define name' v' pos') = .ok w) ↔
      name ≠ name' ∧ t.binding? name = none ∧ t.binding? name' = none := by
  constructor
  · rintro ⟨w, hw⟩
    obtain ⟨u, hu, hw⟩ := bind_eq_ok.mp hw
    have hfree := (exists_define_iff name v pos).mp ⟨u, hu⟩
    have hfree' := (exists_define_iff name' v' pos').mp ⟨w, hw⟩
    rw [binding?_define hu] at hfree'
    split_ifs at hfree' with hn
    exact ⟨fun h => hn h.symm, hfree, hfree'⟩
  · rintro ⟨hne, hfree, hfree'⟩
    obtain ⟨u, hu⟩ := (exists_define_iff name v pos).mpr hfree
    have hstill : u.binding? name' = none := by
      rw [binding?_define hu, if_neg fun h => hne h.symm, hfree']
    obtain ⟨w, hw⟩ := (exists_define_iff name' v' pos').mpr hstill
    exact ⟨w, bind_eq_ok.mpr ⟨u, hu, hw⟩⟩

/-- Definitions can be exchanged. -/
theorem Akin.define_define (h : t.Akin t') :
    Matched Akin (t.define name v pos >>= SymbolTable.define name' v' pos')
      (t'.define name' v' pos' >>= SymbolTable.define name v pos) := by
  apply Matched.of_exists_iff
  · rw [exists_define_define_iff, exists_define_define_iff, h.binding, h.binding]
    tauto
  · intro w w' hw hw'
    have hne := ((exists_define_define_iff name name' v v' pos pos').mp ⟨w, hw⟩).1
    obtain ⟨u, hu, hw⟩ := bind_eq_ok.mp hw
    obtain ⟨u', hu', hw'⟩ := bind_eq_ok.mp hw'
    refine ⟨(h.quiet.define hu).define hw, (h.quiet'.define hu').define hw', fun n => ?_⟩
    rw [binding?_define hw', binding?_define hu', binding?_define hw, binding?_define hu, h.binding]
    by_cases hn : n = name
    · simp [hn, hne]
    · simp [hn]

end Exchange

section Defining

variable {t : SymbolTable}

/-- A call that defines nothing leaves the definitions as they are. -/
theorem definitions_perform (hq : t.Quiet) {c : Call} (hc : c.definition? = none) :
    (c.perform t).definitions = t.definitions := by
  cases c with
  | define name v pos => cases hc
  | lookup name =>
    obtain ⟨r, t', hrun, -, hg, -⟩ := (reads_lookup name).2 t hq
    rw [Call.perform, hrun]
    exact hg.definitions
  | resolveAll =>
    obtain ⟨r, t', hrun, -, hg, -⟩ := run_resolveAll hq
    rw [Call.perform, hrun]
    exact hg.definitions

theorem definitions_perform_define {c : Call} {d : Definition} (hc : c.definition? = some d)
    (hnew : d.name ∉ t.names) : (c.perform t).definitions = t.definitions ++ [d.symbol] := by
  cases c with
  | lookup name => cases hc
  | resolveAll => cases hc
  | define name v pos =>
    cases hc
    have hfree : ¬ t.has name = true := by
      intro hhas
      obtain ⟨s, hs⟩ := Option.isSome_iff_exists.mp hhas
      have hmem := List.mem_map_of_mem (f := Symbol.name) (List.mem_of_find?_eq_some hs)
      rw [name_of_find? hs] at hmem
      exact hnew hmem
    have hdef : t.define name v pos = .ok (t.push ⟨name, v, pos, .pending⟩) := if_neg hfree
    rw [perform_define hdef]
    exact List.map_append

/-- Calls that define distinct names leave exactly their definitions. -/
theorem definitions_after {calls : List Call}
    (h : ((definedBy calls).map Definition.name).Nodup) :
    (after calls).definitions = (definedBy calls).map Definition.symbol := by
  induction calls using List.reverseRecOn with
  | nil => rfl
  | append_singleton calls c ih =>
    have hafter : after (calls ++ [c]) = c.perform (after calls) := by
      rw [after, List.foldl_append]
      rfl
    have hq := (quiet_after calls).1
    rw [definedBy, List.filterMap_append] at h ⊢
    rw [hafter]
    cases hc : c.definition? with
    | none =>
      have hlast : [c].filterMap Call.definition? = [] := by simp [hc]
      rw [hlast, List.append_nil] at h ⊢
      rw [definitions_perform hq hc]
      exact ih h
    | some d =>
      have hlast : [c].filterMap Call.definition? = [d] := by simp [hc]
      rw [hlast, List.map_append, List.nodup_append] at h
      have hdefs := ih h.1
      have hnew : d.name ∉ (after calls).names := by
        rw [← names_definitions, hdefs, List.map_map]
        intro hmem
        exact h.2.2 d.name hmem d.name (by simp) rfl
      rw [hlast, definitions_perform_define hc hnew, hdefs, List.map_append]
      rfl

end Defining

/-- Take any set of definitions of distinct names and any two histories that make them, each in its
own order and with any look-ups and resolutions in between. If all symbols can be resolved, the
integers found solve the definitions, and the other history finds the same integers; if not, it
finds none either. -/
theorem solve_eq_ok_solves (ds : List Definition) (hds : (ds.map Definition.name).Nodup)
    {calls calls' : List Call} (h : (definedBy calls).Perm ds) (h' : (definedBy calls').Perm ds) :
    (∀ values, solve.outcome (after calls) = .ok values → Solves values ds) ∧
      Matched SameValues (solve.outcome (after calls)) (solve.outcome (after calls')) := by
  have hnames : ∀ {xs : List Definition}, xs.Perm ds → (xs.map Definition.name).Nodup := fun hp =>
    (hp.map Definition.name).nodup_iff.mpr hds
  have hdefs := definitions_after (hnames h)
  have hdefs' := definitions_after (hnames h')
  have hq := (quiet_after calls).1
  have hq' := (quiet_after calls').1
  constructor
  · intro values hvalues
    obtain ⟨u, hu, rfl⟩ := solve_eq_ok.mp hvalues
    obtain ⟨hqu, hg, hs⟩ := settled_of_resolveAll hq hu
    have hsymbols : u.definitions = (definedBy calls).map Definition.symbol :=
      hg.definitions.trans hdefs
    constructor
    · rw [hs.names_values, ← names_definitions, hsymbols, List.map_map]
      exact h.map Definition.name
    · intro d hd
      have hmem : d.symbol ∈ u.definitions := by
        rw [hsymbols]
        exact List.mem_map_of_mem (h.mem_iff.mpr hd)
      have hb := hqu.binding?_eq_some.mpr ⟨d.symbol, hmem, rfl, rfl⟩
      obtain ⟨n, hn, hv⟩ := hs.value_binding hqu hb
      refine ⟨n, hn, ?_⟩
      rw [Lazy.outcome_resolveInt, Lazy.intValue]
      change d.value.value _ = _ at hv
      rw [hv]
      rfl
  · apply Akin.solve
    apply hq.akin_of_perm hq'
    rw [hdefs, hdefs']
    exact (h'.trans h.symm).map Definition.symbol

/-- Three definitions, each but the last in terms of the next. -/
def chain : List Definition :=
  [⟨"low", .offset (.symbol "middle") 1, .nowhere⟩,
    ⟨"middle", .binary .mul (.symbol "high") (.int 2), .nowhere⟩, ⟨"high", .int 5, .nowhere⟩]

/-- The chain from its last link to its first, asked for a name too early. -/
def chainUpwards : List Call :=
  [.define "high" (.int 5) .nowhere, .lookup "low",
    .define "middle" (.binary .mul (.symbol "high") (.int 2)) .nowhere, .lookup "middle",
    .define "low" (.offset (.symbol "middle") 1) .nowhere]

theorem solve_chain :
    solve.outcome (after chainUpwards) = .ok [("high", 5), ("middle", 10), ("low", 11)] ∧
      Solves [("high", 5), ("middle", 10), ("low", 11)] chain ∧
      Matched SameValues (solve.outcome (after chainUpwards))
        (solve.outcome (after (chain.map Definition.call))) := by
  have hvalues : solve.outcome (after chainUpwards) =
      .ok [("high", 5), ("middle", 10), ("low", 11)] := rfl
  have hup : (definedBy chainUpwards).Perm chain := List.reverse_perm chain
  have hdown : (definedBy (chain.map Definition.call)).Perm chain := List.Perm.refl chain
  have hchain := solve_eq_ok_solves chain (by decide) hup hdown
  exact ⟨hvalues, hchain.1 _ hvalues, hchain.2⟩

end Eleven.SymbolTable

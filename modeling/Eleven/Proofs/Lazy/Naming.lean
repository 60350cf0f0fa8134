import Eleven.Proofs.Failure.Matched
import Eleven.Proofs.Lazy.Denotation

/-! Expressions in which a number has been given a name. Early arithmetic on the number and late
arithmetic on the name come to the same integers, and this carries over to what the symbols of a
table come to. -/
namespace Eleven

variable {key : String} {n : Int64}

/-- The second environment gives `key` the value `n`; all other names come to the same integers in
both. -/
structure Env.Names (key : String) (n : Int64) (env env' : Env) : Prop where
  named : env' key = .ok (.int n)
  others : ∀ name, name ≠ key →
    Matched Eq ((Lazy.symbol name).intValue env) ((Lazy.symbol name).intValue env')

/-- An environment in which a name has been given a value. -/
def Env.naming (key : String) (n : Int64) (env : Env) : Env := fun name =>
  if name = key then .ok (.int n) else env name

theorem Env.names_naming (env : Env) : Env.Names key n env (env.naming key n) := by
  constructor
  · exact if_pos rfl
  · intro name hname
    have heq : env.naming key n name = env name := if_neg hname
    rw [Lazy.intValue, Lazy.intValue, Lazy.value_symbol, Lazy.value_symbol, heq]
    exact .rfl

theorem Env.names_self {env : Env} (h : env key = .ok (.int n)) : Env.Names key n env env :=
  ⟨h, fun _ _ => .rfl⟩

namespace Lazy

/-- Values that come to the same integer, or both to none, once the name has its value. -/
def SameInt (key : String) (n : Int64) (v v' : Lazy) : Prop :=
  ∀ ⦃env env' : Env⦄, Env.Names key n env env' → Matched Eq (v.intValue env) (v'.intValue env')

/-- Values that come to the same list, or both to none, once the name has its value. -/
def SameList (key : String) (n : Int64) (v v' : Lazy) : Prop :=
  ∀ ⦃env env' : Env⦄, Env.Names key n env env' →
    Matched (fun d d' => ∃ xs, d = .list xs ∧ d' = .list xs) (v.value env) (v'.value env')

theorem sameInt_int (m : Int64) : SameInt key n (int m) (int m) := fun _ _ _ => .ok rfl

theorem sameInt_symbol {name : String} (h : name ≠ key) :
    SameInt key n (symbol name) (symbol name) := fun _ _ henv => henv.others name h

/-- The number and its name. -/
theorem sameInt_named : SameInt key n (int n) (symbol key) := by
  intro env env' henv
  rw [intValue_int, intValue, value_symbol, henv.named]
  exact .ok rfl

section Arithmetic

variable {v v' a a' b b' : Lazy}

theorem intValue_div (env : Env) (a b : Lazy) :
    (a.div b).intValue env = (a.intValue env >>= fun x => b.intValue env >>= fun y =>
      BinaryOp.div.apply x y >>= Datum.expectInt) := by
  rw [div, intValue, value_binary]
  simp only [bind_assoc]

theorem intValue_neg (env : Env) (v : Lazy) :
    v.neg.intValue env = (v.intValue env >>= fun x => .ok (-x)) := by
  unfold neg
  split
  · rename_i x hx
    obtain rfl := intConstant?_eq_some hx
    rfl
  · exact intValue_mapInt env v _

theorem SameInt.mapInt (h : SameInt key n v v') {f g : Int64 → Except Failure Int64}
    (hfg : ∀ x, Matched Eq (f x) (g x)) : SameInt key n (v.mapInt f) (v'.mapInt g) := by
  intro env env' henv
  rw [intValue_mapInt, intValue_mapInt]
  exact (h henv).bindEq hfg

theorem SameInt.add (ha : SameInt key n a a') (hb : SameInt key n b b') :
    SameInt key n (a.add b) (a'.add b') := by
  intro env env' henv
  rw [intValue_add, intValue_add]
  exact (ha henv).bindEq fun x => (hb henv).bindEq fun y => .rfl

theorem SameInt.addInt (h : SameInt key n v v') (k : Int64) :
    SameInt key n (v.addInt k) (v'.addInt k) := h.add (sameInt_int k)

theorem SameInt.sub (ha : SameInt key n a a') (hb : SameInt key n b b') :
    SameInt key n (a.sub b) (a'.sub b') := by
  intro env env' henv
  rw [intValue_sub, intValue_sub]
  exact (ha henv).bindEq fun x => (hb henv).bindEq fun y => .rfl

theorem SameInt.mul (ha : SameInt key n a a') (hb : SameInt key n b b') :
    SameInt key n (a.mul b) (a'.mul b') := by
  intro env env' henv
  rw [intValue_mul, intValue_mul]
  exact (ha henv).bindEq fun x => (hb henv).bindEq fun y => .rfl

theorem SameInt.div (ha : SameInt key n a a') (hb : SameInt key n b b') :
    SameInt key n (a.div b) (a'.div b') := by
  intro env env' henv
  rw [intValue_div, intValue_div]
  exact (ha henv).bindEq fun x => (hb henv).bindEq fun y => .rfl

theorem SameInt.neg (h : SameInt key n v v') : SameInt key n v.neg v'.neg := by
  intro env env' henv
  rw [intValue_neg, intValue_neg]
  exact (h henv).bindEq fun x => .rfl

theorem SameInt.value_binary (ha : SameInt key n a a') (hb : SameInt key n b b') (op : BinaryOp)
    {env env' : Env} (henv : Env.Names key n env env') :
    Matched Eq ((binary op a b).value env) ((binary op a' b').value env') := by
  rw [Lazy.value_binary, Lazy.value_binary]
  exact (ha henv).bindEq fun x => (hb henv).bindEq fun y => .rfl

theorem SameInt.mod (ha : SameInt key n a a') (hb : SameInt key n b b') :
    SameInt key n (a.mod b) (a'.mod b') :=
  fun _ _ henv => (ha.value_binary hb .mod henv).bindEq fun _ => .rfl

end Arithmetic

section Known

variable {v v' : Lazy} {m : Int64}

/-- What a name may stand for is known wherever it has its value. -/
theorem SameInt.intValue_of_left (h : SameInt key n (int m) v') {env : Env}
    (henv : env key = .ok (.int n)) : v'.intValue env = .ok m :=
  ((h (Env.names_self henv)).eq_ok_iff m).mp rfl

theorem SameInt.intValue_of_right (h : SameInt key n v (int m)) (env : Env) :
    v.intValue env = .ok m :=
  ((h (Env.names_naming env)).eq_ok_iff m).mpr rfl

end Known

section Lists

theorem sameList_list (xs : List Int64) : SameList key n (list xs) (list xs) :=
  fun _ _ _ => .ok ⟨xs, rfl, rfl⟩

theorem SameList.of_value {v v' : Lazy} {xs : List Int64}
    (h : ∀ env, v.value env = .ok (.list xs))
    (h' : ∀ env : Env, env key = .ok (.int n) → v'.value env = .ok (.list xs)) :
    SameList key n v v' := by
  intro env env' henv
  rw [h env, h' env' henv.named]
  exact .ok ⟨xs, rfl, rfl⟩

theorem SameList.length {v v' : Lazy} (h : SameList key n v v') :
    SameInt key n v.length v'.length := by
  intro env env' henv
  have hfail : ∀ {w : Lazy} {env : Env} {e : Failure}, w.value env = .error e →
      w.length.intValue env = .error e := by
    intro w env e hw
    unfold Lazy.length
    split
    · cases hw
    · rw [intValue, value_step, hw]
      rfl
  have hv := h henv
  cases hx : v.value env with
  | ok d =>
    cases hy : v'.value env' with
    | error e =>
      rw [hx, hy] at hv
      cases hv
    | ok d' =>
      rw [hx, hy] at hv
      obtain ⟨⟨xs, rfl, rfl⟩⟩ := hv
      rw [intValue_length env hx, intValue_length env' hy]
      exact .ok rfl
  | error e =>
    cases hy : v'.value env' with
    | error e' =>
      rw [hfail hx, hfail hy]
      exact .error e e'
    | ok d' =>
      rw [hx, hy] at hv
      cases hv

/-- As many zeros. -/
theorem SameInt.zeros {v v' : Lazy} (h : SameInt key n v v') :
    SameList key n (repeated v (int 0)) (repeated v' (int 0)) := by
  intro env env' henv
  rw [value_repeated, value_repeated]
  refine (h henv).bindEq fun count => ?_
  by_cases hneg : count < 0
  · rw [if_pos hneg, if_pos hneg]
    exact .error _ _
  · rw [if_neg hneg, if_neg hneg]
    change Matched _ (repeatPattern count [0]) (repeatPattern count [0])
    unfold repeatPattern
    dsimp only
    split
    · exact .error _ _
    · exact .ok ⟨_, rfl, rfl⟩

end Lists

end Lazy

namespace Scope

/-- The second scope also binds `key`, to `n`; the other names are bound to values that come to the
same. -/
structure Names (key : String) (n : Int64) (s s' : Scope) : Prop where
  named : s'.binding? key = some (.int n)
  others : ∀ name, name ≠ key →
    Option.Rel (Lazy.SameInt key n) (s.binding? name) (s'.binding? name)
  active : s'.active = s.active
  idle : key ∉ s.active

theorem Names.enter {s s' : Scope} (h : Names key n s s') {name : String} (hname : name ≠ key) :
    Names key n (s.enter name) (s'.enter name) := by
  refine ⟨h.named, h.others, ?_, ?_⟩
  · exact congrArg (name :: ·) h.active
  · intro hmem
    rcases List.mem_cons.mp hmem with hkey | hmem
    · exact hname hkey.symm
    · exact h.idle hmem

/-- What names come to: the induction is on the room for nested look-ups, and entering a name keeps
the scopes related. -/
theorem Names.env {s s' : Scope} (h : Names key n s s') {k k' : Nat} (hk : s.unvisited < k)
    (hk' : s'.unvisited < k') : Env.Names key n (s.env k) (s'.env k') := by
  induction k generalizing s s' k' with
  | zero => omega
  | succ k ih =>
    obtain ⟨k', rfl⟩ : ∃ j, k' = j + 1 := ⟨k' - 1, by omega⟩
    constructor
    · have hidle : key ∉ s'.active := by
        rw [h.active]
        exact h.idle
      rw [env_succ, h.named]
      simp only [hidle, if_false]
      rfl
    · intro name hname
      rw [Lazy.intValue, Lazy.intValue, Lazy.value_symbol, Lazy.value_symbol, env_succ, env_succ,
        h.active]
      have hrel := h.others name hname
      generalize hb : s.binding? name = x at hrel ⊢
      generalize hb' : s'.binding? name = x' at hrel ⊢
      cases hrel with
      | none => exact .error _ _
      | some hv =>
        by_cases hact : name ∈ s.active
        · simp only [hact, if_true]
          exact .error _ _
        · have hact' : name ∉ s'.active := by
            rw [h.active]
            exact hact
          have hlt := unvisited_enter_lt hb hact
          have hlt' := unvisited_enter_lt hb' hact'
          simp only [hact, if_false]
          exact hv (ih (h.enter hname) (by omega) (by omega))

end Scope

namespace SymbolTable

theorem integerOf?_eq_intValue (env : Env) (name : String) :
    integerOf? env name = ((Lazy.symbol name).intValue env).toOption.map fun n => (name, n) := by
  rw [integerOf?, Lazy.intValue, Lazy.value_symbol]
  cases env name with
  | error e => rfl
  | ok d =>
    cases d with
    | _ => rfl

/-- The second table also defines `key`, first of all and as `n`; the other symbols are defined in
the same order as values that come to the same. -/
structure Names (key : String) (n : Int64) (t t' : SymbolTable) : Prop where
  quiet : t.Quiet
  quiet' : t'.Quiet
  named : t'.binding? key = some (.int n)
  others : ∀ name, name ≠ key →
    Option.Rel (Lazy.SameInt key n) (t.binding? name) (t'.binding? name)
  free : t.binding? key = none
  order : t'.names = key :: t.names

section Names

variable {t t' : SymbolTable} (h : Names key n t t')
include h

theorem Names.env : Env.Names key n t.env t'.env := by
  have hscope : Scope.Names key n t.scope t'.scope := by
    refine ⟨?_, fun name hname => ?_, rfl, List.not_mem_nil⟩
    · rw [binding?_scope, h.named]
    · rw [binding?_scope, binding?_scope]
      exact h.others name hname
  exact hscope.env (unvisited_scope_lt t) (unvisited_scope_lt t')

theorem Names.of_grows {u u' : SymbolTable} (hq : u.Quiet) (hq' : u'.Quiet) (hg : t.Grows u)
    (hg' : t'.Grows u') : Names key n u u' := by
  have hb := binding?_eq_of_definitions hg.definitions
  have hb' := binding?_eq_of_definitions hg'.definitions
  refine ⟨hq, hq', ?_, ?_, ?_, ?_⟩
  · rw [hb', h.named]
  · rw [hb, hb']
    exact h.others
  · rw [hb, h.free]
  · rw [hg'.names, hg.names, h.order]

/-- A definition of another name is refused by both tables or taken by both. -/
theorem Names.define {name : String} (hname : name ≠ key) {v v' : Lazy}
    (hv : Lazy.SameInt key n v v') (pos pos' : Position) :
    Matched (Names key n) (t.define name v pos) (t'.define name v' pos') := by
  have hhas : ∀ u : SymbolTable, u.has name = (u.binding? name).isSome := by
    intro u
    rw [binding?, Option.isSome_map, has]
  have hsame : t'.has name = t.has name := by
    have hrel := h.others name hname
    rw [hhas, hhas]
    generalize t.binding? name = x at hrel ⊢
    generalize t'.binding? name = x' at hrel ⊢
    cases hrel with
    | none => rfl
    | some _ => rfl
  by_cases hdef : t.has name = true
  · have hdef' : t'.has name = true := hsame.trans hdef
    rw [SymbolTable.define, if_pos hdef, SymbolTable.define, if_pos hdef']
    exact .error _ _
  · have hdef' : ¬ t'.has name = true := fun hd => hdef (hsame.symm.trans hd)
    have hok : t.define name v pos = .ok (t.push ⟨name, v, pos, .pending⟩) := if_neg hdef
    have hok' : t'.define name v' pos' = .ok (t'.push ⟨name, v', pos', .pending⟩) := if_neg hdef'
    have hb := binding?_define hok
    have hb' := binding?_define hok'
    rw [hok, hok']
    refine .ok ⟨h.quiet.define hok, h.quiet'.define hok', ?_, fun m hm => ?_, ?_, ?_⟩
    · rw [hb', if_neg hname.symm, h.named]
    · rw [hb, hb']
      by_cases heq : m = name
      · rw [if_pos heq, if_pos heq]
        exact .some hv
      · rw [if_neg heq, if_neg heq]
        exact h.others m hm
    · rw [hb, if_neg hname.symm, h.free]
    · rw [names_push, names_push, h.order, List.cons_append]

/-- All symbols of one table can be resolved exactly if all those of the other can. -/
theorem Names.resolveAll_iff :
    (∃ u, resolveAll.run t = (.ok (), u)) ↔ ∃ u, resolveAll.run t' = (.ok (), u) := by
  rw [h.quiet.resolveAll_eq_ok, h.quiet'.resolveAll_eq_ok]
  constructor
  · intro hall name v' hv'
    by_cases hname : name = key
    · subst hname
      exact ⟨n, by rw [Lazy.intValue, Lazy.value_symbol, h.env.named]; rfl⟩
    · have hrel := h.others name hname
      generalize hv : t.binding? name = x at hrel
      rw [hv'] at hrel
      cases hrel with
      | some _ =>
        obtain ⟨m, hm⟩ := hall name _ hv
        exact ⟨m, ((h.env.others name hname).eq_ok_iff m).mp hm⟩
  · intro hall name v hv
    have hname : name ≠ key := by
      rintro rfl
      rw [h.free] at hv
      cases hv
    have hrel := h.others name hname
    generalize hv' : t'.binding? name = x' at hrel
    rw [hv] at hrel
    cases hrel with
    | some _ =>
      obtain ⟨m, hm⟩ := hall name _ hv'
      exact ⟨m, ((h.env.others name hname).eq_ok_iff m).mpr hm⟩

/-- Once all symbols of both tables have been resolved, only the name makes a difference. -/
theorem Names.values_resolveAll {u u' : SymbolTable} (hu : resolveAll.run t = (.ok (), u))
    (hu' : resolveAll.run t' = (.ok (), u')) : u'.values = (key, n) :: u.values := by
  obtain ⟨hq, hg, -⟩ := settled_of_resolveAll h.quiet hu
  obtain ⟨hq', hg', -⟩ := settled_of_resolveAll h.quiet' hu'
  have hdistinct := h.quiet'.distinct
  rw [h.order, List.nodup_cons] at hdistinct
  have hnamed : integerOf? t'.env key = some (key, n) := by
    rw [integerOf?, h.env.named]
  have hothers : ∀ name ∈ t.names, integerOf? t'.env name = integerOf? t.env name := by
    intro name hmem
    have hname : name ≠ key := fun heq => hdistinct.1 (heq ▸ hmem)
    rw [integerOf?_eq_intValue, integerOf?_eq_intValue, (h.env.others name hname).toOption_eq]
  rw [hq.values_eq, hq'.values_eq, results_eq_env h.quiet hu, results_eq_env h.quiet' hu',
    hg.names, hg'.names, h.order, List.filterMap_cons_some hnamed, List.filterMap_congr hothers]

end Names

end SymbolTable

end Eleven

import Eleven.Proofs.Assembly.Calls
import Eleven.Proofs.Lazy.Denotation
import Mathlib.Algebra.Group.Int.Defs
import Mathlib.Algebra.Group.Nat.Defs

/-! Room that is reserved is as much as was asked for, or it is refused when the program is linked.
The number of words is doubled in 64 bits: of the counts that wrap there, those just above the least
64-bit number come back as a count that fits. -/
namespace Eleven.Assembly

open Eleven.Files (FileSystem)
open Eleven.Source (Header Operation)

/-- A session that has asked for one store at its location counter, which stands at `p`. Its bytes
come to `r`, and the location counter now stands behind them. -/
structure AsksFor (env : Env) (pos : Position) (p : Int64) (r : Except Failure (List Int64))
    (s s' : Session) : Prop where
  store : ∃ w, s'.writes = s.writes ++ [w] ∧ w.position = pos ∧
    w.resolved env = (r.mapError (Failure.annotate pos)).map (·, p)
  counter : s'.pc.intValue env = r.map fun bytes => p + Int64.ofNat bytes.length
  others : s' = { s with pending := s'.pending, pc := s'.pc }

/-- A later session, in which the symbols come to what `env` says. -/
structure Continues (env : Env) (s s₂ : Session) : Prop where
  quiet : s₂.symbols.Quiet
  meaning : s₂.symbols.env = env
  stores : s.writes <+: s₂.writes

/-- Linking `s₂` resolves every symbol and carries out the stores of `s`. -/
def LinksUpTo (env : Env) (s s₂ : Session) : Prop :=
  (∃ t, SymbolTable.resolveAll.run s₂.symbols = (.ok (), t)) ∧
    ∃ memory, stored env #[] s.writes = .ok memory

/-- As many zeros as an integer says, if they fit in the address space. -/
def zeros (m : Int64) : Except Failure (List Int64) :=
  if m < 0 then .error (.fault (.negativeCount m))
  else if m.toInt ≤ 0o200000 then .ok (List.replicate m.toInt.toNat 0)
  else .error (.fault (.countTooLarge m 1))

section Asking

variable {env : Env} {pos : Position} {p : Int64} {s s' s₂ : Session}

/-- A list is asked for, whatever it comes to. -/
theorem asksFor_writeList (pos : Position) {v : Lazy} {r : Except Failure (List Int64)}
    (hp : s.pc.intValue env = .ok p) (hv : v.value env = r.map Datum.list) :
    AsksFor env pos p r s (s.writeList v pos) := by
  refine ⟨⟨⟨s.pc, v, pos⟩, List.reverse_cons, rfl, ?_⟩, ?_, rfl⟩
  · rw [Write.resolved]
    dsimp only
    rw [hv]
    cases r with
    | error e => rfl
    | ok bytes =>
      change Except.mapError _ (s.pc.intValue env >>= fun a => .ok (bytes, a)) = _
      rw [hp]
      rfl
  · change (s.pc.add v.length).intValue env = _
    rw [Lazy.intValue_add, hp, ok_bind]
    cases r with
    | error e =>
      have hlength : v.length.intValue env = .error e := by
        unfold Lazy.length
        split
        · cases hv
        · rw [Lazy.intValue, Lazy.value_step, hv]
          rfl
      rw [hlength]
      rfl
    | ok bytes =>
      rw [Lazy.intValue_length env hv]
      rfl

/-- A store whose bytes cannot be had makes every link fail, and a link that comes to it fails with
what is wrong with it. -/
theorem AsksFor.outcome_linkImage {e : Failure} (h : AsksFor env pos p (.error e) s s')
    (hc : Continues env s' s₂) :
    ∃ f, Session.linkImage.outcome s₂ = .error f ∧ (LinksUpTo env s s₂ → f = e.annotate pos) := by
  obtain ⟨w, hw, -, hfails⟩ := h.store
  obtain ⟨more, hmore⟩ := hc.stores
  have hstores : stored env #[] s₂.writes =
      (stored env #[] s.writes >>= fun _ => .error (e.annotate pos)) := by
    rw [← hmore, hw, List.append_assoc, stored_append]
    congr 1
    funext memory
    rw [List.singleton_append, stored, hfails]
    rfl
  rcases hall : SymbolTable.resolveAll.run s₂.symbols with ⟨f | ⟨⟩, t⟩
  · refine ⟨f, ?_, fun hl => ?_⟩
    · rw [Attempt.outcome, run_linkImage_error hall]
    · obtain ⟨⟨u, hu⟩, -⟩ := hl
      rw [hall] at hu
      cases hu
  · obtain ⟨-, -, hsettled⟩ := SymbolTable.settled_of_resolveAll hc.quiet hall
    have hlink := run_linkImage hsettled hall
    rw [SymbolTable.results_eq_env hc.quiet hall, hc.meaning, hstores] at hlink
    rw [Attempt.outcome, hlink]
    cases hbefore : stored env #[] s.writes with
    | error f =>
      refine ⟨f, rfl, fun hl => ?_⟩
      obtain ⟨-, memory, hmemory⟩ := hl
      rw [hbefore] at hmemory
      cases hmemory
    | ok memory => exact ⟨e.annotate pos, rfl, fun _ => rfl⟩

theorem repeatPattern_singleton_zero (m : Int64) :
    repeatPattern m [0] =
      if m.toInt ≤ 0o200000 then .ok (.list (List.replicate m.toInt.toNat 0))
      else .error (.fault (.countTooLarge m 1)) := by
  have hwidth : maxRepeat / [(0 : Int64)].length = 0o200000 := by decide
  have hclamp : m.toNatClampNeg = m.toInt.toNat := rfl
  have hroom : (m.toNatClampNeg > maxRepeat || ([(0 : Int64)].length > 0 &&
      m.toNatClampNeg > maxRepeat / [(0 : Int64)].length)) = true ↔ ¬ m.toInt ≤ 0o200000 := by
    rw [hwidth, hclamp, maxRepeat]
    simp
    omega
  rw [repeatPattern]
  simp only [hroom, ite_not, List.flatten_replicate_singleton]
  rfl

/-- Zeros that are asked for by a count come to the zeros it says, or to the failure it makes. -/
theorem value_repeated_zero {count : Lazy} {m : Int64} (hm : count.intValue env = .ok m) :
    (Lazy.repeated count (.int 0)).value env = (zeros m).map Datum.list := by
  rw [Lazy.value_repeated, hm, ok_bind, zeros]
  split_ifs with hneg hfits
  · rfl
  · exact (repeatPattern_singleton_zero m).trans (if_pos hfits)
  · exact (repeatPattern_singleton_zero m).trans (if_neg hfits)

theorem zeros_of_fits {m : Int64} (hlow : 0 ≤ m.toInt) (hhigh : m.toInt ≤ 0o200000) :
    zeros m = .ok (List.replicate m.toInt.toNat 0) := by
  have hneg : ¬ m < 0 := by
    rw [Int64.lt_iff_toInt_lt]
    exact Int.not_lt.mpr hlow
  rw [zeros, if_neg hneg, if_pos hhigh]

theorem zeros_refused {m : Int64} (h : ¬ (0 ≤ m.toInt ∧ m.toInt ≤ 0o200000)) :
    ∃ f : Fault, zeros m = .error (.fault f) ∧ (Failure.fault f).category = .outOfRange := by
  unfold zeros
  split_ifs with hneg hfits
  · exact ⟨_, rfl, rfl⟩
  · rw [Int64.lt_iff_toInt_lt] at hneg
    exact absurd ⟨Int.not_lt.mp hneg, hfits⟩ h
  · exact ⟨_, rfl, rfl⟩

end Asking

/-- The directives that reserve room: the bytes of one unit, and the number of units. -/
inductive Reserves : Operation → Int → Lazy → Prop
  | bytes (v : Lazy) : Reserves (.reserveBytes v) 1 v
  | words (v : Lazy) : Reserves (.reserveWords v) 2 v

/-- The bytes that `n` units of `k` bytes take fit in the address space. -/
def Fits (k : Int) (n : Int64) : Prop := 0 ≤ k * n.toInt ∧ k * n.toInt ≤ 0o200000

/-- They do not, but their number modulo `2 ^ 64` does. -/
def WrapsIntoRoom (k : Int) (n : Int64) : Prop :=
  0 ≤ k * n.toInt + 2 ^ 64 ∧ k * n.toInt + 2 ^ 64 ≤ 0o200000

instance (k : Int) (n : Int64) : Decidable (Fits k n) := inferInstanceAs (Decidable (_ ∧ _))

instance (k : Int) (n : Int64) : Decidable (WrapsIntoRoom k n) :=
  inferInstanceAs (Decidable (_ ∧ _))

section Reserving

variable {o : Operation} {k : Int} {v : Lazy} {n : Int64}

/-- The number of bytes is computed in 64 bits. -/
theorem Reserves.apply_eq (ho : Reserves o k v) (fs : FileSystem) (h : Header) (s : Session) :
    ∃ count : Lazy,
      apply fs h o s = .ok (s.writeList (.repeated count (.int 0)) h.position) ∧
      ∀ env, v.intValue env = .ok n → count.intValue env = .ok (Int64.ofInt (k * n.toInt)) := by
  cases ho with
  | bytes v =>
    refine ⟨v, rfl, fun env hn => ?_⟩
    rw [hn, Int.one_mul, Int64.ofInt_toInt]
  | words v =>
    refine ⟨v.mul (.int 2), rfl, fun env hn => ?_⟩
    rw [Lazy.intValue_mul, hn, ok_bind, Lazy.intValue_int, ok_bind, Int64.ofInt_mul,
      Int64.ofInt_toInt, Int64.mul_comm]
    rfl

theorem Reserves.unit_cases (ho : Reserves o k v) : k = 1 ∨ k = 2 := by
  cases ho with
  | bytes => exact .inl rfl
  | words => exact .inr rfl

/-- A number of bytes that is too large comes back negative; one that is too small may come back as
any number. -/
theorem toInt_ofInt_mul (hk : k = 1 ∨ k = 2) (n : Int64) :
    (Int64.ofInt (k * n.toInt)).toInt = k * n.toInt ∨
      (Int64.ofInt (k * n.toInt)).toInt = k * n.toInt + 2 ^ 64 ∨
      (Int64.ofInt (k * n.toInt)).toInt = k * n.toInt - 2 ^ 64 ∧
        (Int64.ofInt (k * n.toInt)).toInt < 0 := by
  have hlow := n.le_toInt
  have hhigh := n.toInt_lt
  have hsize : Int64.size = 18446744073709551616 := rfl
  rw [Int64.toInt_ofInt, Int.bmod_def, hsize]
  rcases hk with rfl | rfl <;> split_ifs <;> omega

end Reserving

/-- A directive that reserves room leaves exactly that room, if it fits in the address space.
Otherwise its bytes cannot be had: no link succeeds, and one that comes to the directive fails with
a report at its place that a value is out of range. The exception are numbers of bytes that wrap to
one that fits: then that other number is reserved. -/
theorem reserve_exact (fs : FileSystem) (h : Header) {o : Operation} {k : Int} {v : Lazy}
    (ho : Reserves o k v) (s : Session) {env : Env} {p n : Int64}
    (hp : s.pc.intValue env = .ok p) (hn : v.intValue env = .ok n) :
    ∃ s', apply fs h o s = .ok s' ∧
      (Fits k n →
        AsksFor env h.position p (.ok (List.replicate (k * n.toInt).toNat 0)) s s') ∧
      (¬ Fits k n → ¬ WrapsIntoRoom k n → ∃ e, e.category = .outOfRange ∧
        AsksFor env h.position p (.error e) s s' ∧
        ∀ s₂, Continues env s' s₂ → ∃ f, Session.linkImage.outcome s₂ = .error f ∧
          (LinksUpTo env s s₂ → f.is .outOfRange = true ∧
            f.diagnostic?.map (·.position) = some h.position)) ∧
      (WrapsIntoRoom k n → ¬ Fits k n ∧
        AsksFor env h.position p (.ok (List.replicate (k * n.toInt + 2 ^ 64).toNat 0)) s s') := by
  obtain ⟨count, happly, hcount⟩ := ho.apply_eq (n := n) fs h s
  have hasks := asksFor_writeList h.position hp (value_repeated_zero (hcount env hn))
  have hm := toInt_ofInt_mul ho.unit_cases n
  generalize Int64.ofInt (k * n.toInt) = m at hasks hm
  have hlow := m.le_toInt
  have hhigh := m.toInt_lt
  refine ⟨_, happly, fun hfits => ?_, fun hfits hwraps => ?_, fun hwraps => ?_⟩
  · unfold Fits at hfits
    have hexact : m.toInt = k * n.toInt := by omega
    rwa [zeros_of_fits (by omega) (by omega), hexact] at hasks
  · unfold Fits at hfits
    unfold WrapsIntoRoom at hwraps
    obtain ⟨f, hf, hcategory⟩ := @zeros_refused m (by omega)
    rw [hf] at hasks
    refine ⟨_, hcategory, hasks, fun s₂ hc => ?_⟩
    obtain ⟨g, hg, hreport⟩ := hasks.outcome_linkImage hc
    refine ⟨g, hg, fun hl => ?_⟩
    rw [hreport hl]
    change ((some (Failure.fault f).category == some .outOfRange) || _) = true ∧ _
    rw [hcategory]
    exact ⟨rfl, rfl⟩
  · unfold WrapsIntoRoom at hwraps
    have hwrapped : m.toInt = k * n.toInt + 2 ^ 64 := by omega
    rw [zeros_of_fits (by omega) (by omega), hwrapped] at hasks
    refine ⟨fun hfits => ?_, hasks⟩
    unfold Fits at hfits
    omega

/-- Words that are counted by a symbol: three of them take six bytes, and of fewer than none a link
complains. -/
theorem reserve_exact_symbol :
    let h : Header := ⟨[], ".BLKW", .nowhere⟩
    let s := Session.new.setLink 0
    (Fits 2 3 ∧ ∃ s', apply noFiles h (.reserveWords (.symbol "N")) s = .ok s' ∧
      AsksFor (.ofSymbols [("N", 3)]) .nowhere 0 (.ok [0, 0, 0, 0, 0, 0]) s s') ∧
    ¬ Fits 2 (-1) ∧ ¬ WrapsIntoRoom 2 (-1) ∧
      ∃ s' e, apply noFiles h (.reserveWords (.symbol "N")) s = .ok s' ∧ e.category = .outOfRange ∧
        AsksFor (.ofSymbols [("N", -1)]) .nowhere 0 (.error e) s s' := by
  intro h s
  have hfits : Fits 2 3 := by decide
  have hout : ¬ Fits 2 (-1) := by decide
  have hwraps : ¬ WrapsIntoRoom 2 (-1) := by decide
  have hasked : ∀ n : Int64, s.pc.intValue (.ofSymbols [("N", n)]) = .ok 0 ∧
      (Lazy.symbol "N").intValue (.ofSymbols [("N", n)]) = .ok n := fun n => ⟨rfl, rfl⟩
  obtain ⟨s', happly, hexact, -, -⟩ :=
    reserve_exact noFiles h (.words (.symbol "N")) s (hasked 3).1 (hasked 3).2
  obtain ⟨s'', happly', -, hrefused, -⟩ :=
    reserve_exact noFiles h (.words (.symbol "N")) s (hasked (-1)).1 (hasked (-1)).2
  obtain ⟨e, hcategory, hasks, -⟩ := hrefused hout hwraps
  exact ⟨⟨hfits, s', happly, hexact hfits⟩, hout, hwraps, s'', e, happly', hcategory, hasks⟩

/-- A negative number of words that is taken for one word. -/
theorem assemble_wrapped_block :
    ¬ Fits 2 (-0x7FFFFFFFFFFFFFFF) ∧
      (Session.assemble noFiles ".BLKW -0x7FFFFFFFFFFFFFFF" 0).outcome .new = .ok [0, 0] := by
  decide +kernel

end Eleven.Assembly

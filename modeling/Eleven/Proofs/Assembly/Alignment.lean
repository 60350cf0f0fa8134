import Eleven.Proofs.Assembly.Eager
import Eleven.Proofs.Assembly.Reserving
import Mathlib.Order.Bounds.Basic

/-! Padding up to a multiple, at once where the location counter and the modulus are known, and left
to the linker where they are not. Both ways end at the next multiple and never divide by zero. Only
padding at once from a negative location counter goes too far. -/
namespace Eleven.Assembly

open Eleven.Files (FileSystem)
open Eleven.Source (Header Operation)

section Multiples

variable {p n q : Int}

theorem isLeast_multiple (p : Int) (hn : 0 < n) : IsLeast {q | n ∣ q ∧ p ≤ q} (p + -p % n) := by
  have hrest : 0 ≤ -p % n := Int.emod_nonneg (-p) (by omega)
  refine ⟨⟨?_, by omega⟩, fun q hq => ?_⟩
  · have hself : n ∣ -p - -p % n := Int.dvd_self_sub_emod
    have hneg : n ∣ -(-p - -p % n) := Int.dvd_neg.mpr hself
    rwa [show -(-p - -p % n) = p + -p % n by omega] at hneg
  · obtain ⟨hdvd, hle⟩ := hq
    -- A later multiple is as far from `p`, up to whole steps.
    have hmod : (q - p) % n = -p % n := by
      rw [Int.sub_eq_add_neg, Int.add_emod, Int.emod_eq_zero_of_dvd hdvd, Int.zero_add,
        Int.emod_emod]
    have hstep := Int.emod_add_mul_ediv (q - p) n
    have hquot : 0 ≤ n * ((q - p) / n) :=
      Int.mul_nonneg (by omega) (Int.ediv_nonneg (by omega) (by omega))
    omega

theorem eq_of_isLeast_multiple (hn : 0 < n) (hq : IsLeast {q | n ∣ q ∧ p ≤ q} q) :
    q = p + -p % n :=
  hq.unique (isLeast_multiple p hn)

theorem neg_emod_eq (p : Int) (hn : 0 < n) : -p % n = if p % n = 0 then 0 else n - p % n := by
  split_ifs with hzero
  · exact Int.emod_eq_zero_of_dvd (Int.dvd_neg.mpr (Int.dvd_of_emod_eq_zero hzero))
  · have hdvd : ¬ n ∣ p := fun h => hzero (Int.emod_eq_zero_of_dvd h)
    rw [Int.neg_emod, if_neg hdvd, Int.natAbs_of_nonneg hn.le]

end Multiples

section Remainders

variable {env : Env} {pc n : Lazy} {p k : Int64}

/-- A remainder toward zero, and the one that is never negative. -/
theorem mod_eq_ofInt (p : Int64) (hk : 0 < k.toInt) :
    p % k = if 0 ≤ p.toInt ∨ k.toInt ∣ p.toInt then Int64.ofInt (p.toInt % k.toInt)
      else Int64.ofInt (p.toInt % k.toInt) - k := by
  have hrem : p % k = Int64.ofInt (p.toInt.tmod k.toInt) := by
    rw [← Int64.toInt_mod, Int64.ofInt_toInt]
  rw [hrem, Int.tmod_eq_emod]
  split_ifs with hside
  · rw [Int.natCast_zero, Int.sub_zero]
  · rw [Int.natAbs_of_nonneg hk.le, Int64.ofInt_sub, Int64.ofInt_toInt]

theorem mod_neg_iff (p : Int64) (hk : 0 < k.toInt) :
    p % k < 0 ↔ ¬ (0 ≤ p.toInt ∨ k.toInt ∣ p.toInt) := by
  have hlow := Int.emod_nonneg p.toInt hk.ne'
  have hhigh := Int.emod_lt_of_pos p.toInt hk
  rw [Int64.lt_iff_toInt_lt, Int64.toInt_mod, Int.tmod_eq_emod]
  change _ < (0 : Int) ↔ _
  split_ifs with hside
  · exact iff_of_false (by omega) (not_not_intro hside)
  · exact iff_of_true (by omega) hside

/-- The remainder that the linker takes. -/
theorem apply_mod (p : Int64) (hk : 0 < k.toInt) :
    BinaryOp.mod.apply p k = .ok (.int (Int64.ofInt (p.toInt % k.toInt))) := by
  have hzero : k ≠ 0 := by
    rintro rfl
    exact absurd hk (by decide)
  have hpos : 0 < k := Int64.lt_iff_toInt_lt.mpr hk
  rw [BinaryOp.apply, if_neg hzero]
  by_cases hside : 0 ≤ p.toInt ∨ k.toInt ∣ p.toInt
  · rw [if_neg (fun h => (mod_neg_iff p hk).mp h.1 hside), mod_eq_ofInt p hk, if_pos hside]
  · rw [if_pos ⟨(mod_neg_iff p hk).mpr hside, hpos⟩, mod_eq_ofInt p hk, if_neg hside,
      Int64.sub_add_cancel]

theorem ofInt_emod_eq_zero (p : Int64) (hk : 0 < k.toInt) :
    Int64.ofInt (p.toInt % k.toInt) = 0 ↔ p.toInt % k.toInt = 0 := by
  have hlow := Int.emod_nonneg p.toInt hk.ne'
  have hhigh := Int.emod_lt_of_pos p.toInt hk
  have hmax := k.toInt_lt
  rw [← Int64.toInt_inj, Int64.toInt_ofInt_of_le (by omega) (by omega)]
  rfl

theorem toInt_ofInt_emod_nonneg (a : Int) (hk : 0 < k.toInt) :
    0 ≤ (Int64.ofInt (a % k.toInt)).toInt := by
  have hlow := Int.emod_nonneg a hk.ne'
  have hhigh := Int.emod_lt_of_pos a hk
  have hmax := k.toInt_lt
  rwa [Int64.toInt_ofInt_of_le (by omega) (by omega)]

theorem intValue_mod (hp : pc.intValue env = .ok p) (hn : n.intValue env = .ok k)
    (hk : 0 < k.toInt) :
    (pc.mod n).intValue env = .ok (Int64.ofInt (p.toInt % k.toInt)) := by
  rw [Lazy.mod, Lazy.intValue, Lazy.value_binary, hp, ok_bind, hn, ok_bind, apply_mod p hk]
  rfl

/-- Padding that is left to the linker reaches the next multiple. -/
theorem lazyPadding_eq_zeros (hp : pc.intValue env = .ok p) (hn : n.intValue env = .ok k)
    (hk : 0 < k.toInt) :
    (lazyPadding pc n).value env =
      (zeros (Int64.ofInt (-p.toInt % k.toInt))).map Datum.list := by
  have hrem := intValue_mod hp hn hk
  have hcond : ((pc.mod n).equal (.int 0)).value env =
      .ok (.bool (Int64.ofInt (p.toInt % k.toInt) == 0)) := by
    rw [Lazy.equal, Lazy.value_binary, hrem]
    rfl
  rw [lazyPadding, Lazy.value_select, hcond, ok_bind, Datum.expectBool, ok_bind, neg_emod_eq _ hk]
  by_cases hmultiple : p.toInt % k.toInt = 0
  · rw [if_pos hmultiple, hmultiple]
    rfl
  · have hrest : ¬ (Int64.ofInt (p.toInt % k.toInt) == 0) = true := by
      rw [beq_iff_eq, ofInt_emod_eq_zero p hk]
      exact hmultiple
    have hcount : (n.sub (pc.mod n)).intValue env =
        .ok (Int64.ofInt (k.toInt - p.toInt % k.toInt)) := by
      rw [Lazy.intValue_sub, hn, ok_bind, hrem, ok_bind, Int64.ofInt_sub, Int64.ofInt_toInt]
    rw [if_neg hmultiple, if_neg hrest, value_repeated_zero hcount]
    cases zeros (Int64.ofInt (k.toInt - p.toInt % k.toInt)) <;> rfl

/-- A modulus that has no value leaves the padding without one. -/
theorem lazyPadding_modulus_error {e : Failure} (hp : pc.intValue env = .ok p)
    (hn : n.intValue env = .error e) : (lazyPadding pc n).value env = .error e := by
  have hrem : (pc.mod n).intValue env = .error e := by
    rw [Lazy.mod, Lazy.intValue, Lazy.value_binary, hp, ok_bind, hn]
    rfl
  rw [lazyPadding, Lazy.value_select, Lazy.equal, Lazy.value_binary, hrem]
  rfl

/-- Padding at once reaches the next multiple from a location counter that is not negative, or that
needs none. -/
theorem knownPadding_eq (hk : 0 < k.toInt) (hside : 0 ≤ p.toInt ∨ k.toInt ∣ p.toInt) :
    knownPadding p k = List.replicate (-p.toInt % k.toInt).toNat 0 := by
  have hlow := Int.emod_nonneg p.toInt hk.ne'
  have hhigh := Int.emod_lt_of_pos p.toInt hk
  have hmax := k.toInt_lt
  rw [knownPadding, mod_eq_ofInt p hk, if_pos hside, neg_emod_eq _ hk]
  by_cases hmultiple : p.toInt % k.toInt = 0
  · rw [if_pos ((ofInt_emod_eq_zero p hk).mpr hmultiple), if_pos hmultiple]
    rfl
  · have hcount : (k - Int64.ofInt (p.toInt % k.toInt)).toInt = k.toInt - p.toInt % k.toInt := by
      rw [Int64.toInt_sub, Int64.toInt_ofInt_of_le (by omega) (by omega),
        Int.bmod_eq_of_le (by omega) (by omega)]
    rw [if_neg (mt (ofInt_emod_eq_zero p hk).mp hmultiple), if_neg hmultiple, Int64.toNatClampNeg,
      hcount]

/-- Otherwise it goes too far, or so far that the number of bytes wraps. -/
theorem length_knownPadding_ne (hk : 0 < k.toInt) (hside : ¬ (0 ≤ p.toInt ∨ k.toInt ∣ p.toInt)) :
    (knownPadding p k).length ≠ (-p.toInt % k.toInt).toNat := by
  have hlow := Int.emod_nonneg p.toInt hk.ne'
  have hhigh := Int.emod_lt_of_pos p.toInt hk
  have hmax := k.toInt_lt
  have hmultiple : p.toInt % k.toInt ≠ 0 := fun h => hside (.inr (Int.dvd_of_emod_eq_zero h))
  have hneg := (mod_neg_iff p hk).mpr hside
  have hrest : p % k ≠ 0 := by
    intro h
    rw [h] at hneg
    exact absurd hneg (by decide)
  have hcount : (k - p % k).toInt = (2 * k.toInt - p.toInt % k.toInt).bmod (2 ^ 64) := by
    have hdouble : k - p % k = Int64.ofInt (2 * k.toInt - p.toInt % k.toInt) := by
      rw [mod_eq_ofInt p hk, if_neg hside, Int.two_mul, Int64.ofInt_sub, Int64.ofInt_add,
        Int64.ofInt_toInt]
      grind
    rw [hdouble, Int64.toInt_ofInt]
    rfl
  rw [knownPadding, if_neg hrest, List.length_replicate, Int64.toNatClampNeg, hcount,
    neg_emod_eq _ hk, if_neg hmultiple, Int.bmod_def]
  split_ifs <;> omega

end Remainders

/-- The directives that move the location counter to a multiple, and of what. -/
inductive Aligns : Operation → Lazy → Prop
  | even : Aligns .even (.int 2)
  | align (v : Lazy) : Aligns (.align v) v

/-- The location counter and the modulus are known when the directive is met. -/
def KnownAtOnce (s : Session) (v : Lazy) : Prop :=
  s.pc.intConstant?.isSome = true ∧ v.intConstant?.isSome = true

/-- A session that has asked for zeros from `p` up to `q`, where its location counter now stands. -/
structure PadsTo (env : Env) (pos : Position) (p : Int64) (q : Int) (s s' : Session) : Prop where
  asks : AsksFor env pos p (.ok (List.replicate (q - p.toInt).toNat 0)) s s'
  counter : s'.pc.intValue env = .ok (Int64.ofInt q)

section Paths

variable {env : Env} {pos : Position} {s s' : Session} {o : Operation} {v : Lazy} {p n : Int64}

theorem Aligns.apply_eq (ho : Aligns o v) (fs : FileSystem) (h : Header) (s : Session) :
    apply fs h o s =
      .ok (s.writeList (padding s.pc (checkedModulus v h.position)) h.position) := by
  cases ho with
  | even => rfl
  | align v => rfl

/-- A modulus is taken as known only if it is positive, so there is no division by zero. -/
theorem checkedModulus_known {k : Int64} (hk : (checkedModulus v pos).intConstant? = some k) :
    v = .int k ∧ 0 < k := by
  unfold checkedModulus at hk
  split at hk
  · rename_i c hc
    split_ifs at hk with hpos
    · rw [hc] at hk
      cases hk
      exact ⟨Lazy.intConstant?_eq_some hc, hpos⟩
    · cases hk
  · cases hk

/-- Padding is worked out at once exactly if both numbers are known and the modulus is positive. -/
theorem padding_cases (s : Session) (v : Lazy) (pos : Position) :
    (∃ p k, s.pc = .int p ∧ v = .int k ∧ 0 < k ∧
      padding s.pc (checkedModulus v pos) = .list (knownPadding p k)) ∨
    (KnownAtOnce s v → ∃ k, v = .int k ∧ k ≤ 0) ∧
      padding s.pc (checkedModulus v pos) = lazyPadding s.pc (checkedModulus v pos) := by
  unfold padding
  split
  · rename_i p k hpc hk
    obtain ⟨hv, hpos⟩ := checkedModulus_known hk
    exact .inl ⟨p, k, Lazy.intConstant?_eq_some hpc, hv, hpos, rfl⟩
  · rename_i hnot
    refine .inr ⟨fun hknown => ?_, rfl⟩
    obtain ⟨p, hpc⟩ := Option.isSome_iff_exists.mp hknown.1
    obtain ⟨k, hk⟩ := Option.isSome_iff_exists.mp hknown.2
    have hv := Lazy.intConstant?_eq_some hk
    refine ⟨k, hv, Int64.not_lt.mp fun hpos => ?_⟩
    have hchecked : checkedModulus v pos = .int k := by
      rw [hv]
      exact if_pos hpos
    exact hnot p k hpc (by rw [hchecked]; rfl)

theorem AsksFor.bytes_eq {xs ys : List Int64} (h : AsksFor env pos p (.ok xs) s s')
    (h' : AsksFor env pos p (.ok ys) s s') : xs = ys := by
  obtain ⟨w, hw, -, hxs⟩ := h.store
  obtain ⟨w', hw', -, hys⟩ := h'.store
  obtain rfl : w = w' := List.singleton_inj.mp (List.append_cancel_left (hw.symm.trans hw'))
  have hsame := hxs.symm.trans hys
  exact congrArg Prod.fst (Except.ok.inj hsame)

theorem PadsTo.of_asks {q : Int} (hq : p.toInt ≤ q)
    (h : AsksFor env pos p (.ok (List.replicate (q - p.toInt).toNat 0)) s s') :
    PadsTo env pos p q s s' := by
  refine ⟨h, h.counter.trans ?_⟩
  have hcount : Int64.ofNat (q - p.toInt).toNat = Int64.ofInt (q - p.toInt) := by
    rw [← Int64.ofInt_eq_ofNat, Int.toNat_of_nonneg (by omega)]
  change Except.ok (p + Int64.ofNat (List.replicate _ _).length) = _
  rw [List.length_replicate, hcount, Int64.ofInt_sub, Int64.ofInt_toInt]
  congr 1
  grind

/-- What padding that is left to the linker asks for. -/
theorem asksFor_lazyPadding (v : Lazy) (pos : Position) (hp : s.pc.intValue env = .ok p) :
    AsksFor env pos p (do
      let n ← v.intValue env
      let k ← alignmentCheck pos n
      zeros (Int64.ofInt (-p.toInt % k.toInt))) s
      (s.writeList (lazyPadding s.pc (checkedModulus v pos)) pos) := by
  apply asksFor_writeList pos hp
  have hmodulus := @intValue_checkedModulus env v pos
  cases hv : v.intValue env with
  | error e =>
    rw [hv] at hmodulus
    exact lazyPadding_modulus_error hp hmodulus
  | ok n =>
    rw [hv, ok_bind, alignmentCheck] at hmodulus
    rw [ok_bind, alignmentCheck]
    split_ifs at hmodulus ⊢ with hneg
    · exact lazyPadding_modulus_error hp hmodulus
    · exact lazyPadding_eq_zeros hp hmodulus (Int64.lt_iff_toInt_lt.mp (Int64.not_le.mp hneg))

section Multiple

variable {q : Int} (hn : 0 < n.toInt) (hq : IsLeast {q | n.toInt ∣ q ∧ p.toInt ≤ q} q)
include hn hq

theorem padsTo_of_zeros (hroom : q - p.toInt ≤ 0o200000)
    (h : AsksFor env pos p (zeros (Int64.ofInt (-p.toInt % n.toInt))) s s') :
    PadsTo env pos p q s s' := by
  have hnext := eq_of_isLeast_multiple hn hq
  have hlow := Int.emod_nonneg (-p.toInt) hn.ne'
  have hcount : (Int64.ofInt (-p.toInt % n.toInt)).toInt = q - p.toInt := by
    rw [Int64.toInt_ofInt_of_le (by omega) (by omega)]
    omega
  rw [zeros_of_fits (by omega) (by omega), hcount] at h
  exact .of_asks (by omega) h

theorem padsTo_iff_of_known (h : AsksFor env pos p (.ok (knownPadding p n)) s s') :
    PadsTo env pos p q s s' ↔ 0 ≤ p.toInt ∨ n.toInt ∣ p.toInt := by
  have hnext := eq_of_isLeast_multiple hn hq
  have hlow := Int.emod_nonneg (-p.toInt) hn.ne'
  have hcount : q - p.toInt = -p.toInt % n.toInt := by omega
  constructor
  · intro hpads
    by_contra hside
    have hbytes := congrArg List.length (h.bytes_eq hpads.asks)
    rw [List.length_replicate, hcount] at hbytes
    exact length_knownPadding_ne hn hside hbytes
  · intro hside
    rw [knownPadding_eq hn hside, ← hcount] at h
    exact .of_asks (by omega) h

end Multiple

theorem zeros_eq_error {m : Int64} (hm : 0 ≤ m.toInt) {e : Failure} (h : zeros m = .error e) :
    e = .fault (.countTooLarge m 1) := by
  have hneg : ¬ m < 0 := by
    rw [Int64.lt_iff_toInt_lt]
    exact Int.not_lt.mpr hm
  rw [zeros, if_neg hneg] at h
  split_ifs at h
  exact (Except.error.inj h).symm

end Paths

end Eleven.Assembly

import Eleven.Machine.Mode
import Eleven.Machine.Word
import Mathlib.Algebra.Group.Nat.Defs

/-! Bit fields of a word, and the six-bit fields that hold a mode and a register. -/
namespace Eleven.Machine

theorem or_and_distrib (a b m : UInt16) : (a ||| b) &&& m = (a &&& m) ||| (b &&& m) :=
  UInt16.toBitVec_inj.1 BitVec.and_or_distrib_right

/-- Bits that lie within `b` are not among those of a mask that `b` avoids. -/
theorem and_eq_zero_of_within {f b m : UInt16} (hf : f &&& b = f) (hb : b &&& m = 0) :
    f &&& m = 0 := by
  rw [← hf, UInt16.and_assoc, hb, UInt16.and_zero]

theorem and_or_and_not (w m : UInt16) : (w &&& m) ||| (w &&& ~~~m) = w := by
  rw [← UInt16.toBitVec_inj]
  apply BitVec.eq_of_getLsbD_eq
  intro i hi
  simp only [UInt16.toBitVec_or, UInt16.toBitVec_and, UInt16.toBitVec_not, BitVec.getLsbD_or,
    BitVec.getLsbD_and, BitVec.getLsbD_not, hi, decide_true, Bool.true_and]
  cases w.toBitVec.getLsbD i <;> cases m.toBitVec.getLsbD i <;> rfl

theorem toNat_and_of_low {m : UInt16} {k : Nat} (hm : m.toNat = 2 ^ k - 1) (w : UInt16) :
    (w &&& m).toNat = w.toNat % 2 ^ k := by
  rw [UInt16.toNat_and, hm, Nat.and_two_pow_sub_one_eq_mod]

theorem and_low_eq_self {m w : UInt16} {k : Nat} (hm : m.toNat = 2 ^ k - 1)
    (hw : w.toNat < 2 ^ k) : w &&& m = w := by
  rw [← UInt16.toNat_inj, toNat_and_of_low hm, Nat.mod_eq_of_lt hw]

theorem toNat_shiftRight_of_lt {k : UInt16} (hk : k.toNat < 16) (w : UInt16) :
    (w >>> k).toNat = w.toNat / 2 ^ k.toNat := by
  rw [UInt16.toNat_shiftRight, Nat.mod_eq_of_lt hk, Nat.shiftRight_eq_div_pow]

/-- Two fields side by side, the lower one of `k` bits. -/
theorem toNat_shiftLeft_or {s d k : UInt16} (hk : k.toNat < 16)
    (hs : s.toNat * 2 ^ k.toNat < 65536) (hd : d.toNat < 2 ^ k.toNat) :
    ((s <<< k) ||| d).toNat = s.toNat * 2 ^ k.toNat + d.toNat := by
  have hshift : (s <<< k).toNat = s.toNat <<< k.toNat := by
    rw [UInt16.toNat_shiftLeft, Nat.mod_eq_of_lt hk, Nat.shiftLeft_eq, Nat.mod_eq_of_lt hs]
  rw [UInt16.toNat_or, hshift, ← Nat.shiftLeft_add_eq_or_of_lt hd, Nat.shiftLeft_eq]

/-- The low six bits of a word and the `k` bits above them, put together again. -/
theorem pair_of_low {b m : UInt16} {k : Nat} (hb : b.toNat = 2 ^ k - 1)
    (hm : m.toNat = 2 ^ (k + 6) - 1) (hk : k ≤ 6) (w : UInt16) :
    (((w >>> 6) &&& b) <<< 6) ||| (w &&& 0o77) = w &&& m := by
  have hlow : (w &&& 0o77).toNat = w.toNat % 64 := toNat_and_of_low (k := 6) rfl w
  have hhigh : ((w >>> 6) &&& b).toNat = w.toNat / 64 % 2 ^ k := by
    rw [toNat_and_of_low hb, toNat_shiftRight_of_lt (by decide)]
    rfl
  have hpow : 2 ^ k ≤ 2 ^ 6 := Nat.pow_le_pow_right (by decide) hk
  have hlt := Nat.mod_lt (w.toNat / 64) (Nat.two_pow_pos k)
  have hor := toNat_shiftLeft_or (s := (w >>> 6) &&& b) (d := w &&& 0o77) (k := 6) (by decide)
    (by rw [hhigh]; simp; omega) (by rw [hlow]; simp; omega)
  rw [← UInt16.toNat_inj, hor, hhigh, hlow, toNat_and_of_low hm, Nat.add_comm k 6, Nat.pow_add,
    Nat.mod_mul, Nat.mul_comm, Nat.add_comm]
  rfl

theorem toNat_wordOfBytes (low high : UInt8) :
    (wordOfBytes low high).toNat = high.toNat * 256 + low.toNat := by
  have hl := low.toNat_lt
  have hh := high.toNat_lt
  have hor := toNat_shiftLeft_or (s := high.toUInt16) (d := low.toUInt16) (k := 8) (by decide)
    (by simp; omega) (by simpa using hl)
  rw [wordOfBytes, UInt16.or_comm, hor, UInt8.toNat_toUInt16, UInt8.toNat_toUInt16]
  rfl

theorem bytesOfWord_wordOfBytes (low high : UInt8) :
    bytesOfWord (wordOfBytes low high) = [low, high] := by
  have hl := low.toNat_lt
  have hh := high.toNat_lt
  have hlow : (wordOfBytes low high).toUInt8 = low := by
    rw [← UInt8.toNat_inj, UInt16.toNat_toUInt8, toNat_wordOfBytes]
    omega
  have hhigh : (wordOfBytes low high >>> 8).toUInt8 = high := by
    rw [← UInt8.toNat_inj, UInt16.toNat_toUInt8, toNat_shiftRight_of_lt (by decide),
      toNat_wordOfBytes]
    change (high.toNat * 256 + low.toNat) / 256 % 256 = high.toNat
    omega
  rw [bytesOfWord, hlow, hhigh]

section SideBySide

variable {s d : UInt16}

theorem shiftLeft_6_or_and_63 (hs : s.toNat < 64) (hd : d.toNat < 64) :
    ((s <<< 6) ||| d) &&& 0o77 = d := by
  have hor := toNat_shiftLeft_or (s := s) (d := d) (k := 6) (by decide) (by simp; omega) hd
  rw [← UInt16.toNat_inj, toNat_and_of_low (k := 6) rfl, hor]
  simp
  omega

theorem shiftLeft_6_or_shiftRight (hs : s.toNat < 64) (hd : d.toNat < 64) :
    ((s <<< 6) ||| d) >>> 6 = s := by
  have hor := toNat_shiftLeft_or (s := s) (d := d) (k := 6) (by decide) (by simp; omega) hd
  rw [← UInt16.toNat_inj, toNat_shiftRight_of_lt (by decide), hor]
  simp
  omega

end SideBySide

theorem toNat_operandField (m : Mode) (r : Register) :
    (operandField m r).toNat = m.number.toNat % 8 * 8 + r.number.toNat % 8 := by
  have hm := toNat_and_of_low (m := 7) (k := 3) rfl m.number
  have hr := toNat_and_of_low (m := 7) (k := 3) rfl r.number
  rw [operandField, toNat_shiftLeft_or (k := 3) (by decide), hm, hr]
  · rfl
  · change (m.number &&& 7).toNat * 8 < 65536
    omega
  · change (r.number &&& 7).toNat < 8
    omega

theorem operandField_lt (m : Mode) (r : Register) : (operandField m r).toNat < 64 := by
  have h := toNat_operandField m r
  omega

theorem number_fieldMode (f : UInt16) : (fieldMode f).number.toNat = f.toNat / 8 % 8 := by
  rw [fieldMode, toNat_and_of_low (k := 3) rfl, toNat_shiftRight_of_lt (by decide)]
  rfl

theorem number_fieldRegister (f : UInt16) : (fieldRegister f).number.toNat = f.toNat % 8 := by
  rw [fieldRegister]
  exact toNat_and_of_low (k := 3) rfl f

theorem Mode.eq_of_toNat {m m' : Mode} (h : m.number.toNat = m'.number.toNat) : m = m' := by
  cases m
  cases m'
  rw [Mode.mk.injEq]
  exact UInt16.toNat_inj.mp h

theorem Register.eq_of_toNat {r r' : Register} (h : r.number.toNat = r'.number.toNat) : r = r' := by
  cases r
  cases r'
  rw [Register.mk.injEq]
  exact UInt16.toNat_inj.mp h

theorem fieldMode_operandField {m : Mode} (hm : m.number.toNat < 8) (r : Register) :
    fieldMode (operandField m r) = m := by
  apply Mode.eq_of_toNat
  rw [number_fieldMode, toNat_operandField]
  omega

theorem fieldRegister_operandField (m : Mode) {r : Register} (hr : r.number.toNat < 8) :
    fieldRegister (operandField m r) = r := by
  apply Register.eq_of_toNat
  rw [number_fieldRegister, toNat_operandField]
  omega

theorem operandField_fieldMode_fieldRegister {f : UInt16} (hf : f.toNat < 64) :
    operandField (fieldMode f) (fieldRegister f) = f := by
  rw [← UInt16.toNat_inj, toNat_operandField, number_fieldMode, number_fieldRegister]
  omega

end Eleven.Machine

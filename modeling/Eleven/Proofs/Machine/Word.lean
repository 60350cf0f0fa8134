import Eleven.Machine.Word
import Mathlib.Algebra.Group.Int.Defs
import Mathlib.Algebra.Group.Nat.Defs

/-! Words as numbers and as bytes, and the low sixteen bits of larger integers. -/
namespace Eleven.Machine

theorem wrapAddress_add (a b : Int64) : wrapAddress (a + b) = wrapAddress a + wrapAddress b := by
  simp [wrapAddress]

theorem wrapAddress_sub (a b : Int64) : wrapAddress (a - b) = wrapAddress a - wrapAddress b := by
  simp [wrapAddress]

theorem wrapAddress_or (a b : Int64) : wrapAddress (a ||| b) = wrapAddress a ||| wrapAddress b := by
  rw [wrapAddress, wrapAddress, wrapAddress, ← UInt16.toBitVec_inj]
  simp

theorem wrapAddress_and (a b : Int64) : wrapAddress (a &&& b) = wrapAddress a &&& wrapAddress b := by
  rw [wrapAddress, wrapAddress, wrapAddress, ← UInt16.toBitVec_inj]
  simp

theorem wrapAddress_ofNat (n : Nat) : wrapAddress (Int64.ofNat n) = UInt16.ofNat n := by
  simp [wrapAddress]

theorem wrapAddress_ofNat_shiftLeft_6 : ∀ k < 8,
    wrapAddress (Int64.ofNat k <<< 6) = UInt16.ofNat k <<< 6 := by decide

theorem ofNat_shiftLeft_6 : ∀ k < 8,
    Int64.ofNat k <<< 6 = unsignedWord (UInt16.ofNat k <<< 6) := by decide

@[simp] theorem wrapAddress_signedWord (w : UInt16) : wrapAddress (signedWord w) = w := by
  rw [wrapAddress, signedWord, ← UInt16.toBitVec_inj]
  apply BitVec.eq_of_getLsbD_eq
  intro i hi
  have hi64 : i < 64 := by omega
  simp [BitVec.getElem_signExtend, hi, hi64]

@[simp] theorem wrapAddress_unsignedWord (w : UInt16) : wrapAddress (unsignedWord w) = w := by
  rw [wrapAddress, unsignedWord, ← UInt16.toBitVec_inj]
  simp

theorem ofNat_toNat_toInt {a : Int64} (ha : 0 ≤ a.toInt) : Int64.ofNat a.toInt.toNat = a := by
  rw [← Int64.ofInt_eq_ofNat, Int.toNat_of_nonneg ha, Int64.ofInt_toInt]

theorem toInt_add_ofNat {a : Int64} {n : Nat} (ha : 0 ≤ a.toInt) (hn : a.toInt + n < 2 ^ 63) :
    (a + Int64.ofNat n).toInt = a.toInt + n := by
  rw [Int64.toInt_add, Int64.toInt_ofNat_of_lt (by omega), Int.bmod_eq_of_le (by omega) (by omega)]

/-- A sum that is no 64-bit number looks negative. -/
theorem toInt_add_ofNat_of_wraps {a : Int64} {n : Nat} (hn : n < 2 ^ 63) (h : 2 ^ 63 ≤ a.toInt + n) :
    (a + Int64.ofNat n).toInt = a.toInt + n - 2 ^ 64 := by
  have ha : a.toInt < 2 ^ 63 := a.toInt_lt
  have hwrapped : (a.toInt + n - (2 ^ 64 : Nat)).bmod (2 ^ 64) = a.toInt + n - (2 ^ 64 : Nat) :=
    Int.bmod_eq_of_le (by omega) (by omega)
  rw [Int64.toInt_add, Int64.toInt_ofNat_of_lt hn, ← Int.sub_bmod_right, hwrapped]
  rfl

theorem toInt_unsignedWord (w : UInt16) : (unsignedWord w).toInt = w.toNat := by
  have hw := w.toNat_lt
  rw [unsignedWord, Int64.toInt_ofNat_of_lt (by omega)]

/-- An address inside the address space is its own low sixteen bits. -/
theorem unsignedWord_wrapAddress {a : Int64} (h : 0 ≤ a.toInt) (h' : a.toInt < 0o200000) :
    unsignedWord (wrapAddress a) = a := by
  have ha : a = Int64.ofNat a.toInt.toNat := by
    rw [← Int64.toInt_inj, Int64.toInt_ofNat_of_lt (by omega)]
    omega
  have hn : a.toInt.toNat < 2 ^ 16 := by omega
  generalize a.toInt.toNat = n at ha hn
  subst ha
  rw [unsignedWord, wrapAddress]
  congr 1
  simp
  omega

theorem toInt_unsignedWord_wrapAddress (a : Int64) :
    (unsignedWord (wrapAddress a)).toInt = a.toInt % 65536 := by
  have h : (wrapAddress a).toNat = a.toBitVec.toNat % 65536 := by
    rw [wrapAddress, UInt64.toNat_toUInt16]
    rfl
  have hint : a.toInt = a.toBitVec.toInt := rfl
  rw [toInt_unsignedWord, h, hint, BitVec.toInt_eq_toNat_bmod, Int.bmod_def]
  split <;> omega

theorem unsignedWord_or (a b : UInt16) :
    unsignedWord a ||| unsignedWord b = unsignedWord (a ||| b) := by
  have ha := a.toNat_lt
  have hb := b.toNat_lt
  have hor : (a.toNat ||| b.toNat) < 2 ^ 16 := Nat.or_lt_two_pow (by omega) (by omega)
  rw [unsignedWord, unsignedWord, unsignedWord, ← Int64.toBitVec_inj, ← BitVec.toNat_inj]
  simp only [Int64.toBitVec_or, Int64.toBitVec_ofNat', UInt16.toNat_or, BitVec.toNat_or,
    BitVec.toNat_ofNat]
  rw [Nat.mod_eq_of_lt (by omega), Nat.mod_eq_of_lt (by omega), Nat.mod_eq_of_lt (by omega)]

theorem wordOfBytes_bytesOfWord (w : UInt16) :
    wordOfBytes w.toUInt8 (w >>> 8).toUInt8 = w := by
  have hw := w.toNat_lt
  have hhigh : (w.toNat / 256 % 256) <<< 8 % 65536 = (w.toNat / 256) <<< 8 := by
    rw [Nat.mod_eq_of_lt (by omega : w.toNat / 256 < 256), Nat.shiftLeft_eq]
    omega
  have hor := Nat.shiftLeft_add_eq_or_of_lt (Nat.mod_lt w.toNat (by decide : 0 < 2 ^ 8))
    (w.toNat / 256)
  rw [wordOfBytes, ← UInt16.toNat_inj, UInt16.toNat_or, UInt8.toNat_toUInt16,
    UInt16.toNat_toUInt8, UInt16.toNat_shiftLeft, UInt8.toNat_toUInt16, UInt16.toNat_toUInt8,
    UInt16.toNat_shiftRight]
  change w.toNat % 2 ^ 8 ||| (w.toNat >>> 8 % 256) <<< 8 % 65536 = _
  rw [Nat.shiftRight_eq_div_pow, hhigh, Nat.or_comm, ← hor, Nat.shiftLeft_eq]
  omega

theorem toUInt8_and_255 (w : UInt16) : (w &&& 0xFF).toUInt8 = w.toUInt8 := by
  rw [UInt16.toUInt8_and]
  exact UInt8.and_neg_one

/-- The low byte of a word as an integer. -/
theorem unsignedWord_and_255 (w : UInt16) :
    unsignedWord w &&& 0xFF = Int64.ofNat w.toUInt8.toNat := by
  have hw := w.toNat_lt
  have hand : w.toNat &&& 255 = w.toNat % 256 := Nat.and_two_pow_sub_one_eq_mod w.toNat 8
  rw [← Int64.toBitVec_inj, ← BitVec.toNat_inj]
  simp only [unsignedWord, Int64.toBitVec_and, BitVec.toNat_and, Int64.toBitVec_ofNat']
  simp [hand]
  omega

/-- The high byte of a word as an integer. -/
theorem unsignedWord_shiftRight_8 (w : UInt16) :
    unsignedWord w >>> 8 = Int64.ofNat (w >>> 8).toUInt8.toNat := by
  have hw := w.toNat_lt
  rw [← Int64.toBitVec_inj, Int64.toBitVec_shiftRight, BitVec.sshiftRight_eq',
    BitVec.sshiftRight_eq_of_msb_false]
  · rw [← BitVec.toNat_inj]
    simp [unsignedWord, Nat.shiftRight_eq_div_pow]
    omega
  · simp [unsignedWord, BitVec.msb_eq_decide]
    omega

/-- Halving loses nothing of an even number. -/
theorem two_mul_div_two {d : Int64} (h : d % 2 = 0) : 2 * (d / 2) = d := by
  have hm : d.toInt.tmod 2 = 0 := by
    have := congrArg Int64.toInt h
    rwa [Int64.toInt_mod] at this
  have hq : (d / 2).toInt = d.toInt.tdiv 2 := Int64.toInt_div_of_ne_right d 2 (by decide)
  have hd := Int.mul_tdiv_add_tmod d.toInt 2
  have h1 := d.le_toInt
  have h2 := d.toInt_lt
  rw [← Int64.toInt_inj, Int64.toInt_mul, hq]
  change (2 * d.toInt.tdiv 2).bmod _ = _
  rw [Int.bmod_eq_of_le] <;> omega

/-- A number of eight signed bits is read back from the low byte of a word. -/
theorem toInt8_wrapAddress {q : Int64} (h : -128 ≤ q.toInt) (h' : q.toInt ≤ 127) :
    (wrapAddress q).toUInt8.toInt8.toInt64 = q := by
  have hq : (wrapAddress q).toUInt8.toInt8 = q.toInt8 := by
    rw [wrapAddress, ← Int8.toBitVec_inj]
    simp [BitVec.signExtend_eq_setWidth_of_le]
  rw [hq, ← Int64.toInt_inj, Int8.toInt_toInt64, Int64.toInt_toInt8, Int.bmod_eq_of_le] <;> omega

/-- A signed byte is stored in two's complement. -/
theorem toInt64_and_255 (b : UInt8) : b.toInt8.toInt64 &&& 0xFF = Int64.ofNat b.toNat := by
  rw [← Int64.toBitVec_inj]
  change b.toBitVec.signExtend 64 &&& 255#64 = BitVec.ofNat 64 b.toBitVec.toNat
  rw [BitVec.ofNat_toNat]
  apply BitVec.eq_of_getElem_eq
  intro i hi
  have hmask : (255#64)[i] = decide (i < 8) := Nat.testBit_two_pow_sub_one 8 i
  rw [BitVec.getElem_and, BitVec.getElem_signExtend, BitVec.getElem_setWidth, hmask]
  by_cases h8 : i < 8
  · simp [h8]
  · simp [h8, BitVec.getLsbD_of_ge b.toBitVec i (Nat.le_of_not_lt h8)]

section Doubled

variable {f : Int}

theorem toInt_two_mul_ofInt (hlow : -0o200000 ≤ f) (hhigh : f ≤ 0o200000) :
    (2 * Int64.ofInt f).toInt = 2 * f := by
  rw [Int64.toInt_mul, Int64.toInt_ofInt_of_le (by omega) (by omega)]
  change (2 * f).bmod (2 ^ 64) = 2 * f
  rw [Int.bmod_eq_of_le] <;> omega

theorem two_mul_ofInt_mod_two (hlow : -0o200000 ≤ f) (hhigh : f ≤ 0o200000) :
    2 * Int64.ofInt f % 2 = 0 := by
  rw [← Int64.toInt_inj, Int64.toInt_mod, toInt_two_mul_ofInt hlow hhigh]
  exact Int.mul_tmod_right 2 f

theorem two_mul_ofInt_div_two (hlow : -0o200000 ≤ f) (hhigh : f ≤ 0o200000) :
    2 * Int64.ofInt f / 2 = Int64.ofInt f := by
  rw [← Int64.toInt_inj, Int64.toInt_div_of_ne_right _ _ (by decide),
    toInt_two_mul_ofInt hlow hhigh, Int64.toInt_ofInt_of_le (by omega) (by omega)]
  exact Int.mul_tdiv_cancel_left f (by decide)

theorem wrapAddress_ofInt (f : Int) : wrapAddress (Int64.ofInt f) = UInt16.ofInt f := by
  have hbits : (Int64.ofInt f).toUInt64.toNat = (f % 2 ^ 64).toNat := by
    change (BitVec.ofInt 64 f).toNat = _
    rw [BitVec.toNat_ofInt]
    rfl
  rw [← UInt16.toNat_inj, wrapAddress, UInt64.toNat_toUInt16, UInt16.ofInt, hbits]
  simp
  omega

theorem ofInt_eq_unsignedWord (hlow : 0 ≤ f) (hhigh : f < 0o200000) :
    Int64.ofInt f = unsignedWord (UInt16.ofInt f) := by
  have hf : (Int64.ofInt f).toInt = f := Int64.toInt_ofInt_of_le (by omega) (by omega)
  rw [← wrapAddress_ofInt, unsignedWord_wrapAddress (by omega) (by omega)]

end Doubled

/-- The low byte of an integer as a word. -/
theorem and_255_eq_unsignedWord (a : Int64) :
    a &&& 0xFF = unsignedWord (wrapAddress a &&& 0xFF) := by
  have hnat : (a &&& 0xFF).toBitVec.toNat = a.toBitVec.toNat % 256 := by
    rw [Int64.toBitVec_and, BitVec.toNat_and]
    exact Nat.and_two_pow_sub_one_eq_mod _ 8
  have hint : (a &&& 0xFF).toInt = a.toBitVec.toNat % 256 := by
    change (a &&& 0xFF).toBitVec.toInt = _
    rw [BitVec.toInt_eq_toNat_of_lt (by omega), hnat]
    rfl
  have hword : wrapAddress (a &&& 0xFF) = wrapAddress a &&& 0xFF := wrapAddress_and a 0xFF
  rw [← hword, unsignedWord_wrapAddress (by omega) (by omega)]

end Eleven.Machine

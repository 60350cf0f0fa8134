import Eleven.Proofs.Source.NumberForms
import Eleven.Text.Radix
import Eleven.Text.Upper
import Mathlib.Algebra.Group.Nat.Defs

/-! Octal numbers are read back as what was printed. -/
namespace Eleven.Text

/-- One of the digits from 0 to 7. -/
def IsOctal (c : Char) : Prop := ∃ d < 8, c = Nat.digitChar d

theorem isOctal_of_mem_toDigits {n : Nat} {c : Char} (h : c ∈ Nat.toDigits 8 n) : IsOctal c :=
  digit_of_mem_toDigits (by decide) h

theorem IsOctal.upperChar {c : Char} (hc : IsOctal c) : Text.upperChar c = c := by
  obtain ⟨d, hd, rfl⟩ := hc
  revert d
  decide

theorem IsOctal.isDigit {c : Char} (hc : IsOctal c) : Text.isDigit c = true := by
  obtain ⟨d, hd, rfl⟩ := hc
  revert d
  decide

theorem IsOctal.isNameChar {c : Char} (hc : IsOctal c) : Source.isNameChar c = true := by
  rw [Source.isNameChar, hc.isDigit, Bool.or_true]

theorem toList_bareOctal {n : Nat} (hn : n < 2 ^ 63) :
    (bareOctal (Int64.ofNat n)).toList = Nat.toDigits 8 n := by
  rw [bareOctal, String.toList_ofList, signedDigits, Int64.toInt_ofNat_of_lt hn,
    if_neg (by omega), Int.natAbs_natCast]

theorem toList_paddedOctal (width : Nat) {n : Nat} (hn : n < 2 ^ 63) :
    (paddedOctal width (Int64.ofNat n)).toList =
      List.replicate (width - (Nat.toDigits 8 n).length) '0' ++ Nat.toDigits 8 n := by
  have hint : (Int64.ofNat n).toInt = n := Int64.toInt_ofNat_of_lt hn
  have hneg : ¬ Int64.ofNat n < 0 := by
    rw [Int64.lt_iff_toInt_lt, hint]
    exact Int.not_lt.mpr (Int.natCast_nonneg n)
  rw [paddedOctal, if_neg hneg, String.toList_ofList, hint, Int.natAbs_natCast]

/-- A number in octal is read as that number. -/
theorem numeral?_bareOctal {n : Nat} (hn : n < 2 ^ 63) :
    Source.numeral? false (bareOctal (Int64.ofNat n)) = some (Int64.ofNat n) := by
  have htext : bareOctal (Int64.ofNat n) = Source.NumberForm.plain.print false n := by
    rw [← String.toList_inj, toList_bareOctal hn]
    simp [Source.NumberForm.print, Source.NumberForm.around, Source.NumberForm.mark,
      Source.NumberForm.ending, Source.NumberForm.radix]
  rw [htext]
  exact Source.numeral?_print .plain hn

/-- Padded numbers differ where the numbers do. -/
theorem paddedOctal_inj {width m n : Nat} (hm : m < 2 ^ 63) (hn : n < 2 ^ 63)
    (h : paddedOctal width (Int64.ofNat m) = paddedOctal width (Int64.ofNat n)) : m = n := by
  have hvalue : ∀ k < 2 ^ 63,
      Nat.ofDigitChars 8 (paddedOctal width (Int64.ofNat k)).toList 0 = k := by
    intro k hk
    rw [toList_paddedOctal width hk, Nat.ofDigitChars_append, Nat.ofDigitChars_replicate_zero,
      Nat.mul_zero, Nat.ofDigitChars_toDigits (by decide) (by decide)]
  rw [← hvalue m hm, h, hvalue n hn]

end Eleven.Text

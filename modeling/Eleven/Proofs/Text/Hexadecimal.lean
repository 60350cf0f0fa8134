import Eleven.Proofs.Source.NumberForms
import Mathlib.Algebra.Group.Nat.Defs

/-! Hexadecimal numbers are read back as what was printed. -/
namespace Eleven.Text

/-- Hexadecimal behind the mark `0x`. -/
def hexadecimal (n : Nat) : String := String.ofList ('0' :: 'x' :: Nat.toDigits 16 n)

/-- One of the digits from 0 to f. -/
def IsHexadecimal (c : Char) : Prop := ∃ d < 16, c = Nat.digitChar d

theorem isHexadecimal_of_mem_toDigits {n : Nat} {c : Char} (h : c ∈ Nat.toDigits 16 n) :
    IsHexadecimal c :=
  digit_of_mem_toDigits (by decide) h

theorem IsHexadecimal.isNameChar {c : Char} (hc : IsHexadecimal c) :
    Source.isNameChar c = true := by
  obtain ⟨d, hd, rfl⟩ := hc
  exact Source.NumberForm.isNameChar_digitChar d hd

/-- A number in hexadecimal is read as that number, whatever plain numbers are. -/
theorem numeral?_hexadecimal (decimal : Bool) {n : Nat} (hn : n < 2 ^ 63) :
    Source.numeral? decimal (hexadecimal n) = some (Int64.ofNat n) := by
  have htext : hexadecimal n = Source.NumberForm.hexadecimal.print decimal n := by
    simp [hexadecimal, Source.NumberForm.print, Source.NumberForm.around, Source.NumberForm.mark,
      Source.NumberForm.ending, Source.NumberForm.radix]
  rw [htext]
  exact Source.numeral?_print .hexadecimal hn

end Eleven.Text

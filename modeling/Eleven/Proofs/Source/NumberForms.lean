import Eleven.Proofs.Text.Digits
import Eleven.Source.Numeral
import Eleven.Source.Token
import Mathlib.Algebra.Group.Nat.Defs

/-! The forms of a number in source, and that a text is read as a number exactly if it has one of
them. -/
namespace Eleven.Source

open Text (IsDigits positional)

/-- How a number is written: with a dot behind it, with a mark in front of it, or plainly. -/
inductive NumberForm where
  | dotted
  | hexadecimal
  | octal
  | binary
  | plain
deriving DecidableEq, Repr

namespace NumberForm

/-- Plain digits are decimal or octal, whichever is in force. -/
def radix (decimal : Bool) : NumberForm → Nat
  | .dotted => 10
  | .hexadecimal => 16
  | .octal => 8
  | .binary => 2
  | .plain => if decimal then 10 else 8

def mark : NumberForm → List Char
  | .hexadecimal => ['0', 'x']
  | .octal => ['0', 'o']
  | .binary => ['0', 'b']
  | _ => []

def ending : NumberForm → List Char
  | .dotted => ['.']
  | _ => []

/-- Digits with the mark and the ending of the form around them. -/
def around (form : NumberForm) (digits : List Char) : List Char :=
  form.mark ++ digits ++ form.ending

end NumberForm

/-- The text is the digits in the form, with letters in either case. -/
structure Writes (decimal : Bool) (form : NumberForm) (ds : List Nat) (text : String) : Prop where
  digits : IsDigits (form.radix decimal) ds
  lower_eq : text.toList.map Char.toLower = form.around (ds.map Nat.digitChar)

namespace NumberForm

variable (decimal : Bool) (form : NumberForm)

theorem radix_bounds : 1 < form.radix decimal ∧ form.radix decimal ≤ 16 := by
  cases form <;> cases decimal <;> decide

theorem plain_radix_le : plain.radix decimal ≤ 10 := by cases decimal <;> decide

theorem digit_lt {decimal : Bool} {form : NumberForm} {ds : List Nat}
    (hds : IsDigits (form.radix decimal) ds) : ∀ d ∈ ds, d < 16 :=
  fun d hd => Nat.lt_of_lt_of_le (hds.lt d hd) (form.radix_bounds decimal).2

theorem isNameChar_digitChar : ∀ d < 16, isNameChar (Nat.digitChar d) = true := by decide

/-- Marks and digits can stand in names. -/
theorem isNameChar_of_mem {decimal : Bool} {form : NumberForm} {ds : List Nat}
    (hds : IsDigits (form.radix decimal) ds) :
    ∀ c ∈ form.mark ++ ds.map Nat.digitChar, isNameChar c = true := by
  have hmark : form.mark.all isNameChar = true := by cases form <;> decide
  intro c hc
  rcases List.mem_append.mp hc with hc | hc
  · exact List.all_eq_true.mp hmark c hc
  · obtain ⟨d, hd, rfl⟩ := List.mem_map.mp hc
    exact isNameChar_digitChar d (digit_lt hds d hd)

/-- Plain digits have neither a mark nor a dot, whether or not they are digits of the radix. -/
theorem radixOf_digits {cs : List Char} (hcs : ∀ c ∈ cs, c.isDigit = true) :
    radixOf decimal cs = (plain.radix decimal, cs) := by
  have hlast : cs.getLast? ≠ some '.' := fun h =>
    absurd (hcs '.' (List.mem_of_getLast? h)) (by decide)
  unfold radixOf
  rw [if_neg hlast]
  split
  · exact absurd (hcs 'x' (by simp)) (by decide)
  · exact absurd (hcs 'o' (by simp)) (by decide)
  · exact absurd (hcs 'b' (by simp)) (by decide)
  · rfl

theorem isDigit_digitChar : ∀ d < 10, (Nat.digitChar d).isDigit = true := by decide

/-- The spelling of a number in a form calls for the radix of the form. -/
theorem radixOf_around {decimal : Bool} {form : NumberForm} {ds : List Nat}
    (hds : IsDigits (form.radix decimal) ds) :
    radixOf decimal (form.around (ds.map Nat.digitChar)) =
      (form.radix decimal, ds.map Nat.digitChar) := by
  have hlast : form.ending = [] →
      (form.mark ++ ds.map Nat.digitChar ++ form.ending).getLast? ≠ some '.' := by
    intro hending h
    rw [hending, List.append_nil] at h
    exact absurd (isNameChar_of_mem hds '.' (List.mem_of_getLast? h)) (by decide)
  cases form with
  | dotted => simp [radixOf, around, mark, ending, radix]
  | plain =>
    have hdigit : ∀ c ∈ ds.map Nat.digitChar, c.isDigit = true := by
      intro c hc
      obtain ⟨d, hd, rfl⟩ := List.mem_map.mp hc
      exact isDigit_digitChar d (Nat.lt_of_lt_of_le (hds.lt d hd) (plain_radix_le decimal))
    simp only [around, mark, ending, List.nil_append, List.append_nil]
    exact radixOf_digits decimal hdigit
  | _ =>
    unfold radixOf around
    rw [if_neg (hlast rfl)]
    simp only [mark, ending, List.append_nil]
    rfl

/-- Every spelling has a form. -/
theorem exists_form (cs : List Char) :
    ∃ form : NumberForm, cs = form.around (radixOf decimal cs).2 ∧
      (radixOf decimal cs).1 = form.radix decimal := by
  unfold radixOf
  split
  · next hlast =>
    obtain ⟨digits, rfl⟩ := List.getLast?_eq_some_iff.mp hlast
    exact ⟨.dotted, by simp [around, mark, ending], rfl⟩
  · split
    · exact ⟨.hexadecimal, by simp [around, mark, ending], rfl⟩
    · exact ⟨.octal, by simp [around, mark, ending], rfl⟩
    · exact ⟨.binary, by simp [around, mark, ending], rfl⟩
    · exact ⟨.plain, by simp [around, mark, ending], rfl⟩

end NumberForm

section Printing

/-- A number in a form, with letters in lower case. -/
def NumberForm.print (decimal : Bool) (form : NumberForm) (n : Nat) : String :=
  String.ofList (form.around (Nat.toDigits (form.radix decimal) n))

theorem NumberForm.map_toLower_print (decimal : Bool) (form : NumberForm) (n : Nat) :
    (form.print decimal n).toList.map Char.toLower = (form.print decimal n).toList := by
  obtain ⟨ds, hds, hprint, -⟩ := Text.exists_digits (form.radix_bounds decimal).1 n
  have hlower : ∀ d < 16, (Nat.digitChar d).toLower = Nat.digitChar d := by decide
  have hdigits : (ds.map Nat.digitChar).map Char.toLower = ds.map Nat.digitChar := by
    rw [List.map_map]
    apply List.map_congr_left
    intro d hd
    exact hlower d (digit_lt hds d hd)
  have hmark : form.mark.map Char.toLower = form.mark := by cases form <;> rfl
  have hending : form.ending.map Char.toLower = form.ending := by cases form <;> rfl
  rw [print, String.toList_ofList, around, hprint, List.map_append, List.map_append, hdigits, hmark,
    hending]

theorem writes_of_print {decimal : Bool} {form : NumberForm} {n : Nat} {text : String}
    (h : text.toList.map Char.toLower = (form.print decimal n).toList) :
    ∃ ds, Writes decimal form ds text ∧ positional (form.radix decimal) ds = n := by
  obtain ⟨ds, hds, hprint, hvalue⟩ := Text.exists_digits (form.radix_bounds decimal).1 n
  rw [NumberForm.print, String.toList_ofList, hprint] at h
  exact ⟨ds, ⟨hds, h⟩, hvalue⟩

end Printing

section Numerals

variable {decimal : Bool} {text : String} {n : Int64}

theorem numeral?_eq_some_iff_readInteger :
    numeral? decimal text = some n ↔
      ∃ m, Text.readInteger (radixOf decimal (text.toList.map Char.toLower)).1 64
        (radixOf decimal (text.toList.map Char.toLower)).2 = .ok m ∧ Int64.ofInt m = n := by
  unfold numeral?
  dsimp only
  cases Text.readInteger (radixOf decimal (text.toList.map Char.toLower)).1 64
    (radixOf decimal (text.toList.map Char.toLower)).2 <;> simp

/-- A number in one of the forms is read if it fits. -/
theorem Writes.numeral?_eq {form : NumberForm} {ds : List Nat} (h : Writes decimal form ds text)
    (hsmall : positional (form.radix decimal) ds < 2 ^ 63) :
    numeral? decimal text = some (Int64.ofNat (positional (form.radix decimal) ds)) := by
  obtain ⟨hpos, hle⟩ := form.radix_bounds decimal
  have hread := (Text.readInteger_map_digitChar (Nat.lt_of_succ_lt hpos) hle
    (NumberForm.digit_lt h.digits)).mpr ⟨h.digits, hsmall, rfl⟩
  rw [numeral?_eq_some_iff_readInteger, h.lower_eq, NumberForm.radixOf_around h.digits]
  exact ⟨_, hread, Int64.ofInt_eq_ofNat⟩

/-- A text without signs is a number exactly if it is written in one of the forms and fits, and then
it is what its digits say. -/
theorem numeral?_eq_some_iff (hsign : ∀ c ∈ text.toList.map Char.toLower, c ≠ '-' ∧ c ≠ '+') :
    numeral? decimal text = some n ↔
      ∃ form ds, Writes decimal form ds text ∧ positional (form.radix decimal) ds < 2 ^ 63 ∧
        n.toInt = positional (form.radix decimal) ds := by
  constructor
  · intro h
    obtain ⟨m, hread, rfl⟩ := numeral?_eq_some_iff_readInteger.mp h
    obtain ⟨form, haround, hradix⟩ := NumberForm.exists_form decimal (text.toList.map Char.toLower)
    obtain ⟨hpos, hle⟩ := form.radix_bounds decimal
    rw [hradix] at hread
    have hrest : ∀ c ∈ (radixOf decimal (text.toList.map Char.toLower)).2, c ≠ '-' ∧ c ≠ '+' := by
      intro c hc
      apply hsign
      rw [haround]
      exact List.mem_append_left _ (List.mem_append_right _ hc)
    obtain ⟨ds, hds, hdigits, hsmall, rfl⟩ :=
      (Text.readInteger_eq_ok_iff (Nat.lt_of_succ_lt hpos) hle hrest).mp hread
    rw [hdigits] at haround
    refine ⟨form, ds, ⟨hds, haround⟩, hsmall, ?_⟩
    rw [Int64.ofInt_eq_ofNat, Int64.toInt_ofNat_of_lt hsmall]
  · rintro ⟨form, ds, hwrites, hsmall, hn⟩
    have hvalue : n = Int64.ofNat (positional (form.radix decimal) ds) := by
      rw [← Int64.toInt_inj, hn, Int64.toInt_ofNat_of_lt hsmall]
    rw [hvalue]
    exact hwrites.numeral?_eq hsmall

/-- A number that is printed in a form is read as that number, in whatever case its letters are. -/
theorem numeral?_of_print {form : NumberForm} {k : Nat} (hk : k < 2 ^ 63)
    (h : text.toList.map Char.toLower = (form.print decimal k).toList) :
    numeral? decimal text = some (Int64.ofNat k) := by
  obtain ⟨ds, hwrites, rfl⟩ := writes_of_print h
  exact hwrites.numeral?_eq hk

theorem numeral?_print (form : NumberForm) {k : Nat} (hk : k < 2 ^ 63) :
    numeral? decimal (form.print decimal k) = some (Int64.ofNat k) :=
  numeral?_of_print hk (form.map_toLower_print decimal k)

end Numerals

end Eleven.Source

import Eleven.Proofs.Failure.Matched
import Eleven.Proofs.Source.Lexing
import Eleven.Source.Statement

/-! The case of letters. Names and numbers are read the same whether their letters are capitals or
not. -/
namespace Eleven

namespace Text

/-- A text with its ASCII letters in lower case. -/
def lower (s : String) : String := String.ofList (s.toList.map Char.toLower)

theorem toLower_of_le {c : Char} (hc : 128 ≤ c.toNat) : c.toLower = c := by
  have hcapital : ¬ (c.val ≥ 'A'.val ∧ c.val ≤ 'Z'.val) := by
    rintro ⟨-, hz⟩
    have hsmall : c.toNat ≤ 90 := hz
    omega
  exact dif_neg hcapital

/-- What holds of the ASCII characters, and of any that has no case, holds of all. -/
theorem toLower_induction {p : Char → Prop}
    (hascii : ∀ n < 128, p (Char.ofNat n)) (hother : ∀ c : Char, c.toLower = c → p c) (c : Char) :
    p c := by
  by_cases hc : c.toNat < 128
  · have h := hascii c.toNat hc
    rwa [Char.ofNat_toNat] at h
  · exact hother c (toLower_of_le (by omega))

theorem upperChar_toLower (c : Char) : upperChar c.toLower = upperChar c := by
  apply toLower_induction (p := fun c => upperChar c.toLower = upperChar c)
  · decide
  · intro c hc
    rw [hc]

theorem lowerCase_toLower (c : Char) : lowerCase c.toLower = lowerCase c := by
  apply toLower_induction (p := fun c => lowerCase c.toLower = lowerCase c)
  · decide
  · intro c hc
    rw [hc]

theorem toLower_toLower (c : Char) : c.toLower.toLower = c.toLower := by
  apply toLower_induction (p := fun c => c.toLower.toLower = c.toLower)
  · decide
  · intro c hc
    rw [hc, hc]

theorem toLower_eq_dot_iff (c : Char) : c.toLower = '.' ↔ c = '.' := by
  apply toLower_induction (p := fun c => c.toLower = '.' ↔ c = '.')
  · decide
  · intro c hc
    rw [hc]

theorem map_lower {β : Type} {f : Char → β} (hf : ∀ c : Char, f c.toLower = f c) (s : String) :
    (lower s).toList.map f = s.toList.map f := by
  rw [lower, String.toList_ofList, List.map_map]
  exact List.map_congr_left fun c _ => hf c

theorem upper_lower (s : String) : upper (lower s) = upper s := by
  rw [upper, upper, map_lower upperChar_toLower]

end Text

namespace Source

open Eleven.Machine (Register)

theorem isDotted_lower (name : String) : isDotted (Text.lower name) = isDotted name := by
  rw [isDotted, isDotted, Text.lower, String.toList_ofList, List.head?_map]
  cases name.toList.head? with
  | none => rfl
  | some c =>
    rw [Bool.eq_iff_iff]
    simpa using Text.toLower_eq_dot_iff c

theorem ofName?_lower (name : String) :
    Register.ofName? (Text.lower name) = Register.ofName? name := by
  rw [Register.ofName?, Register.ofName?, Text.upper_lower]

theorem numeral?_lower (decimal : Bool) (digits : String) :
    numeral? decimal (Text.lower digits) = numeral? decimal digits := by
  rw [numeral?, numeral?, Text.map_lower Text.toLower_toLower]

/-- A lexeme with the letters of names and numbers in lower case. -/
def Lexeme.folded : Lexeme → Lexeme
  | .ident name => .ident (Text.lower name)
  | .number digits => .number (Text.lower digits)
  | .text s => .text s
  | .punct c => .punct c

/-- Lexemes that differ in the case of letters only. -/
inductive Lexeme.SameButCase : Lexeme → Lexeme → Prop
  | ident {name name' : String} (h : Text.lower name' = Text.lower name) :
    SameButCase (.ident name) (.ident name')
  | number {digits digits' : String} (h : Text.lower digits' = Text.lower digits) :
    SameButCase (.number digits) (.number digits')
  | text (s : String) : SameButCase (.text s) (.text s)
  | punct (c : Char) : SameButCase (.punct c) (.punct c)

theorem Lexeme.sameButCase_iff {l l' : Lexeme} : l.SameButCase l' ↔ l'.folded = l.folded := by
  constructor
  · intro h
    cases h with
    | ident h => exact congrArg Lexeme.ident h
    | number h => exact congrArg Lexeme.number h
    | text s => rfl
    | punct c => rfl
  · intro h
    cases l with
    | ident name =>
      cases l' with
      | ident name' => exact .ident (Lexeme.ident.inj h)
      | _ => cases h
    | number digits =>
      cases l' with
      | number digits' => exact .number (Lexeme.number.inj h)
      | _ => cases h
    | text s =>
      cases l' with
      | text s' =>
        cases h
        exact .text s
      | _ => cases h
    | punct c =>
      cases l' with
      | punct c' =>
        cases h
        exact .punct c
      | _ => cases h

/-- The lexemes of a line in lower case; none if the line cannot be split into tokens. -/
def foldedLine (line : String) : Option (List Lexeme) :=
  (tokenize line).toOption.map fun ts => ts.map (·.lexeme.folded)

/-- The lines of a text in lower case. Texts with the same such lines differ in layout, in comments
and in the case of letters outside quotes only. -/
def foldedText (text : String) : List (Option (List Lexeme)) := (Text.lines text).map foldedLine

theorem matched_tokenize {line line' : String} (h : foldedLine line' = foldedLine line) :
    Matched (fun ts ts' => ts'.map (·.lexeme.folded) = ts.map (·.lexeme.folded))
      (tokenize line) (tokenize line') := by
  unfold foldedLine at h
  cases hleft : tokenize line with
  | ok ts =>
    cases hright : tokenize line' with
    | ok ts' =>
      rw [hleft, hright] at h
      exact .ok (Option.some.inj h)
    | error e' =>
      rw [hleft, hright] at h
      cases h
  | error e =>
    cases hright : tokenize line' with
    | ok ts' =>
      rw [hleft, hright] at h
      cases h
    | error e' => exact .error e e'

/-- Names that differ in case only play the same part. -/
structure SameName (name name' : String) : Prop where
  upper : Text.upper name' = Text.upper name
  isDotted : isDotted name' = isDotted name
  register : Register.ofName? name' = Register.ofName? name

theorem sameName_of_lower {name name' : String} (h : Text.lower name' = Text.lower name) :
    SameName name name' where
  upper := by rw [← Text.upper_lower name', h, Text.upper_lower]
  isDotted := by rw [← isDotted_lower name', h, isDotted_lower]
  register := by rw [← ofName?_lower name', h, ofName?_lower]

end Source

end Eleven

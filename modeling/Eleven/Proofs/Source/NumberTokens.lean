import Eleven.Proofs.Source.Casing
import Eleven.Proofs.Source.NumberForms
import Eleven.Proofs.Source.TokenLayout

/-! Numbers as tokens. What is cut out of a line as a number may be anything that starts with a digit;
it denotes a number exactly if it is written in one of the forms. -/
namespace Eleven.Source

open Text (IsDigits positional)

section Letters

theorem isDigit_toLower (c : Char) : Text.isDigit c.toLower = Text.isDigit c := by
  apply Text.toLower_induction (p := fun c => Text.isDigit c.toLower = Text.isDigit c)
  · decide
  · intro c hc
    rw [hc]

theorem isNameChar_toLower (c : Char) : isNameChar c.toLower = isNameChar c := by
  apply Text.toLower_induction (p := fun c => isNameChar c.toLower = isNameChar c)
  · decide
  · intro c hc
    rw [hc]

end Letters

section Tokens

variable {w rest : List Char} {text : String}

theorem isNameChar_of_isDigit {c : Char} (h : Text.isDigit c = true) : isNameChar c = true := by
  rw [isNameChar, h, Bool.or_true]

/-- A number is made of name characters and dots. -/
theorem Lexed.number_chars (h : Lexed w (.number text) rest) :
    ∀ c ∈ text.toList, isNameChar c = true ∨ c = '.' := by
  intro c hc
  cases h with
  | number hfirst htail _ =>
    rw [String.toList_ofList] at hc
    rcases List.mem_cons.mp hc with rfl | hc
    · exact .inl (isNameChar_of_isDigit hfirst)
    · exact .inl (htail c hc)
  | dotted hfirst htail =>
    rw [String.toList_ofList] at hc
    rcases List.mem_cons.mp hc with rfl | hc
    · exact .inl (isNameChar_of_isDigit hfirst)
    · rcases List.mem_append.mp hc with hc | hc
      · exact .inl (htail c hc)
      · exact .inr (List.mem_singleton.mp hc)

/-- No sign gets into a number, in front or behind a mark. -/
theorem Lexed.number_unsigned (h : Lexed w (.number text) rest) :
    ∀ c ∈ text.toList.map Char.toLower, c ≠ '-' ∧ c ≠ '+' := by
  rw [List.forall_mem_map]
  intro c hc
  rcases h.number_chars c hc with hname | rfl
  · rw [← isNameChar_toLower] at hname
    constructor <;> (intro hsign; rw [hsign] at hname; revert hname; decide)
  · decide

/-- A lexeme that is a whole line is its only token. -/
theorem tokenize_of_lexed {l : Lexeme} (h : Lexed text.toList l []) :
    tokenize text = .ok [⟨l, 1⟩] := by
  have hend : Laid (1 + text.toList.length) [] [] := .done [] (by simp) (by simp)
  have hline := @Laid.token 1 [] text.toList [] ⟨l, 1⟩ [] (by simp) rfl h hend
  rw [List.nil_append, List.append_nil] at hline
  exact tokenize_eq_ok_iff.mpr hline

end Tokens

section Forms

variable {decimal : Bool} {form : NumberForm} {ds : List Nat} {text : String}

/-- A number in any of the forms starts with a digit: that of its mark, or its own first one. -/
theorem NumberForm.exists_first (hds : IsDigits (form.radix decimal) ds) :
    ∃ first tail, form.mark ++ ds.map Nat.digitChar = first :: tail ∧
      Text.isDigit first = true := by
  have hown : form.radix decimal ≤ 10 → form.mark = [] → ∃ first tail,
      form.mark ++ ds.map Nat.digitChar = first :: tail ∧ Text.isDigit first = true := by
    intro hten hmark
    obtain ⟨d, ds, rfl⟩ := List.exists_cons_of_ne_nil hds.ne_nil
    have hdigit : ∀ d < 10, Text.isDigit (Nat.digitChar d) = true := by decide
    have hd : d < form.radix decimal := hds.lt d List.mem_cons_self
    exact ⟨Nat.digitChar d, ds.map Nat.digitChar, by rw [hmark]; rfl,
      hdigit d (Nat.lt_of_lt_of_le hd hten)⟩
  cases form with
  | dotted => exact hown (Nat.le_refl 10) rfl
  | plain => exact hown (plain_radix_le decimal) rfl
  | _ => exact ⟨'0', _, rfl, by decide⟩

/-- A number in any of the forms is cut out of a line as one token. -/
theorem Writes.lexed (h : Writes decimal form ds text) : Lexed text.toList (.number text) [] := by
  obtain ⟨first, tail, hbody, hfirst⟩ := NumberForm.exists_first h.digits
  have hname := NumberForm.isNameChar_of_mem h.digits
  have hlower := h.lower_eq
  rw [NumberForm.around, hbody] at hlower
  rw [hbody] at hname
  obtain ⟨body, back, htext, hmap, hback⟩ := List.map_eq_append_iff.mp hlower
  obtain ⟨c, cs, rfl, hc, hcs⟩ := List.map_eq_cons_iff.mp hmap
  have hdigit : Text.isDigit c = true := by rwa [← isDigit_toLower, hc]
  have htail : ∀ x ∈ cs, isNameChar x = true := by
    intro x hx
    rw [← isNameChar_toLower]
    apply hname
    rw [← hcs]
    exact List.mem_cons_of_mem _ (List.mem_map_of_mem hx)
  have hnumber : text = String.ofList (c :: cs ++ back) := by rw [← htext, String.ofList_toList]
  rw [htext, hnumber]
  cases form with
  | dotted =>
    obtain ⟨dot, rest, rfl, hdot, hrest⟩ := List.map_eq_cons_iff.mp hback
    obtain rfl : dot = '.' := (Text.toLower_eq_dot_iff dot).mp hdot
    obtain rfl : rest = [] := List.map_eq_nil_iff.mp hrest
    exact .dotted hdigit htail
  | _ =>
    obtain rfl : back = [] := List.map_eq_nil_iff.mp hback
    rw [List.append_nil]
    exact .number hdigit htail breaks_nil

end Forms

/-- Whatever is in force for plain digits, a token that is a number denotes one exactly if it is decimal
digits and a dot, digits of a radix behind the mark of the radix, or plain digits, and fits in 63 bits;
then it denotes what its digits say. So every number that fits is read back from the one token of its
print in any of these forms, in whatever case the letters are. -/
theorem numeral_denotes (decimal : Bool) :
    (∀ line ts text column, tokenize line = .ok ts → ⟨.number text, column⟩ ∈ ts → ∀ n,
      (numeral? decimal text = some n ↔ ∃ form ds, Writes decimal form ds text ∧
        positional (form.radix decimal) ds < 2 ^ 63 ∧
        n.toInt = positional (form.radix decimal) ds)) ∧
    ∀ (form : NumberForm) (n : Nat) (text : String), n < 2 ^ 63 →
      Text.lower text = form.print decimal n →
        tokenize text = .ok [⟨.number text, 1⟩] ∧
        numeral? decimal text = some (Int64.ofNat n) := by
  constructor
  · intro line ts text column hts htoken n
    obtain ⟨w, rest, hlexed⟩ := (tokenize_eq_ok_iff.mp hts).lexed _ htoken
    exact numeral?_eq_some_iff hlexed.number_unsigned
  · intro form n text hn hprint
    have hlower : text.toList.map Char.toLower = (form.print decimal n).toList := by
      rw [← hprint, Text.lower, String.toList_ofList]
    obtain ⟨ds, hwrites, -⟩ := writes_of_print hlower
    exact ⟨tokenize_of_lexed hwrites.lexed, numeral?_of_print hn hlower⟩

def numberLine : String := "L: .WORD 0X1f, 19."

def numberTokens : List Token :=
  [⟨.ident "L", 1⟩, ⟨.punct ':', 2⟩, ⟨.ident ".WORD", 4⟩, ⟨.number "0X1f", 10⟩, ⟨.punct ',', 14⟩,
    ⟨.number "19.", 16⟩]

/-- A number behind a mark, and the greatest number there is. -/
theorem numeral_denotes_marked :
    tokenize numberLine = .ok numberTokens ∧ ⟨.number "0X1f", 10⟩ ∈ numberTokens ∧
      Writes false .hexadecimal [1, 15] "0X1f" ∧ numeral? false "0X1f" = some 31 ∧
      Text.lower "0X7fffFFFFffffFFFF" = NumberForm.hexadecimal.print true 0x7FFFFFFFFFFFFFFF ∧
      tokenize "0X7fffFFFFffffFFFF" = .ok [⟨.number "0X7fffFFFFffffFFFF", 1⟩] ∧
      numeral? true "0X7fffFFFFffffFFFF" = some 0x7FFFFFFFFFFFFFFF := by
  have htokens : tokenize numberLine = .ok numberTokens := by decide +kernel
  have hmem : (⟨.number "0X1f", 10⟩ : Token) ∈ numberTokens := by decide
  have hwrites : Writes false .hexadecimal [1, 15] "0X1f" :=
    ⟨⟨by decide, by decide⟩, by decide⟩
  have hprint : Text.lower "0X7fffFFFFffffFFFF" =
      NumberForm.hexadecimal.print true 0x7FFFFFFFFFFFFFFF := by decide +kernel
  have hread := ((numeral_denotes false).1 _ _ _ _ htokens hmem 31).mpr
    ⟨.hexadecimal, [1, 15], hwrites, by decide, by decide⟩
  have hback := (numeral_denotes true).2 .hexadecimal 0x7FFFFFFFFFFFFFFF _ (by decide) hprint
  exact ⟨htokens, hmem, hwrites, hread, hprint, hback.1, hback.2⟩

end Eleven.Source

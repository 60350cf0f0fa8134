import Eleven.Proofs.Source.LineOrder
import Eleven.Proofs.Source.Located
import Eleven.Proofs.Source.StatementForms
import Eleven.Proofs.Source.TokenLayout

/-! The names that a source defines. Labels and equations take any name of a line, and an expression
that consists of a name refers to it unless it is one of a register or starts with a dot. -/
namespace Eleven

namespace Text

/-- What holds of the ASCII characters, of the two others that have an ASCII capital, and of any that
is its own capital, holds of all. -/
theorem upperChar_induction {p : Char → Prop} (hascii : ∀ n < 128, p (Char.ofNat n))
    (hlong : p (Char.ofNat 0x17F)) (hdotless : p (Char.ofNat 0x131))
    (hother : ∀ c : Char, upperChar c = c → p c) (c : Char) : p c := by
  by_cases hc : c.toNat < 128
  · have h := hascii c.toNat hc
    rwa [Char.ofNat_toNat] at h
  by_cases hs : c.toNat = 0x17F
  · rwa [← Char.ofNat_toNat c, hs]
  by_cases hi : c.toNat = 0x131
  · rwa [← Char.ofNat_toNat c, hi]
  apply hother c
  have hsmall : ¬ (c.val ≥ 'a'.val ∧ c.val ≤ 'z'.val) := by
    rintro ⟨-, hz⟩
    have hle : c.toNat ≤ 122 := hz
    omega
  rw [upperChar, if_neg hs, if_neg hi]
  exact dif_neg hsmall

theorem upperChar_upperChar (c : Char) : upperChar (upperChar c) = upperChar c := by
  apply upperChar_induction (p := fun c => upperChar (upperChar c) = upperChar c)
  · decide
  · decide
  · decide
  · intro c hc
    rw [hc, hc]

theorem upperChar_eq_dot_iff (c : Char) : upperChar c = '.' ↔ c = '.' := by
  apply upperChar_induction (p := fun c => upperChar c = '.' ↔ c = '.')
  · decide
  · decide
  · decide
  · intro c hc
    rw [hc]

theorem upper_upper (s : String) : upper (upper s) = upper s := by
  rw [upper, upper, String.toList_ofList, List.map_map]
  congr 1
  exact List.map_congr_left fun c _ => upperChar_upperChar c

end Text

namespace Source

open Eleven.Machine (Register)

section Names

theorem isDotted_upper (name : String) : isDotted (Text.upper name) = isDotted name := by
  rw [isDotted, isDotted, Text.upper, String.toList_ofList, List.head?_map]
  cases name.toList.head? with
  | none => rfl
  | some c =>
    rw [Bool.eq_iff_iff]
    simpa using Text.upperChar_eq_dot_iff c

theorem ofName?_upper (name : String) :
    Register.ofName? (Text.upper name) = Register.ofName? name := by
  rw [Register.ofName?, Register.ofName?, Text.upper_upper]

theorem isNameStart_upperChar {c : Char} (h : isNameStart c = true) :
    isNameStart (Text.upperChar c) = true := by
  have hall := of_ascii (p := fun c => !isNameStart c || isNameStart (Text.upperChar c)) (by decide)
    (toNat_lt_of_isNameStart h)
  simpa [h] using hall

theorem isNameChar_upperChar {c : Char} (h : isNameChar c = true) :
    isNameChar (Text.upperChar c) = true := by
  revert h
  apply Text.upperChar_induction
    (p := fun c => isNameChar c = true → isNameChar (Text.upperChar c) = true)
  · decide
  · intro _
    decide
  · intro _
    decide
  · intro c hc h
    rwa [hc]

/-- A name as lines have them. -/
structure IsIdent (name : String) : Prop where
  spelled : ∃ first tail, name.toList = first :: tail ∧ startsName first tail = true ∧
    ∀ x ∈ tail, isNameChar x = true

theorem isIdent_of_tokenize {line name : String} {ts : List Token} {t : Token}
    (hts : tokenize line = .ok ts) (ht : t ∈ ts) (hname : t.lexeme = .ident name) :
    IsIdent name := by
  obtain ⟨w, rest, hlexed⟩ := (tokenize_eq_ok_iff.mp hts).lexed t ht
  rw [hname] at hlexed
  cases hlexed with
  | @ident first tail _ hfirst htail _ =>
    exact ⟨first, tail, String.toList_ofList, hfirst, htail⟩

/-- Capitals make a name of a name. -/
theorem IsIdent.upper {name : String} (h : IsIdent name) : IsIdent (Text.upper name) := by
  obtain ⟨first, tail, hname, hfirst, htail⟩ := h.spelled
  refine ⟨Text.upperChar first, tail.map Text.upperChar, ?_, ?_, ?_⟩
  · rw [Text.upper, String.toList_ofList, hname, List.map_cons]
  · simp only [startsName, Bool.or_eq_true, Bool.and_eq_true, decide_eq_true_eq] at hfirst ⊢
    rcases hfirst with hstart | ⟨hdot, hnext⟩
    · exact .inl (isNameStart_upperChar hstart)
    · refine .inr ⟨(Text.upperChar_eq_dot_iff first).mpr hdot, ?_⟩
      cases tail with
      | nil => cases hnext
      | cons c tail => exact isNameStart_upperChar hnext
  · intro x hx
    obtain ⟨c, hc, rfl⟩ := List.mem_map.mp hx
    exact isNameChar_upperChar (htail c hc)

/-- A name alone is one token. -/
theorem IsIdent.tokenize_eq {name : String} (h : IsIdent name) :
    tokenize name = .ok [⟨.ident name, 1⟩] := by
  obtain ⟨first, tail, hname, hfirst, htail⟩ := h.spelled
  have hofList : name = String.ofList (first :: tail) := by
    rw [← hname, String.ofList_toList]
  have hlexed : Lexed (first :: tail) (.ident name) [] := by
    rw [hofList]
    exact .ident hfirst htail (by simp)
  have hend : Laid (1 + (first :: tail).length) [] [] := .done [] (by simp) (by simp)
  have hlaid : Laid 1 (first :: tail) [⟨.ident name, 1⟩] := by
    have := @Laid.token 1 [] (first :: tail) [] ⟨.ident name, 1⟩ [] (by simp) rfl hlexed hend
    simpa using this
  rw [tokenize_eq_ok_iff, hname]
  exact hlaid

end Names

section References

/-- The expression that consists of the name refers to the symbol of that name. -/
def IsReference (name : String) : Prop :=
  ∀ decimal, ∃ ts, tokenize name = .ok ts ∧ lazyExpression decimal ts = .ok (.symbol name, [])

theorem lazyExpression_ident (decimal : Bool) (name : String) (column : Nat) :
    lazyExpression decimal [⟨.ident name, column⟩] =
      (atom decimal (.ident name)).map fun e => (e.toLazy, []) := by
  have hfactor : factor decimal 6 [⟨.ident name, column⟩] =
      (atom decimal (.ident name)).map fun e => (e, []) := by
    rw [factor]
    simp only [reduceCtorEq, if_false]
    cases atom decimal (.ident name) <;> rfl
  change (sum decimal 8 [⟨.ident name, column⟩] >>= _) = _
  rw [sum, product, hfactor]
  cases atom decimal (.ident name) <;> rfl

/-- A name in capitals is a reference unless it is one of a register or starts with a dot. -/
theorem IsIdent.isReference_iff {name : String} (h : IsIdent name) (hupper : Text.upper name = name) :
    IsReference name ↔ Register.ofName? name = none ∧ isDotted name = false := by
  constructor
  · intro href
    obtain ⟨ts, hts, hvalue⟩ := href false
    rw [h.tokenize_eq] at hts
    cases hts
    rw [lazyExpression_ident, atom] at hvalue
    split at hvalue
    · cases hvalue
    · next hregister =>
      split at hvalue
      · cases hvalue
      · next hdotted => exact ⟨by simpa using hregister, by simpa using hdotted⟩
  · rintro ⟨hregister, hdotted⟩ decimal
    refine ⟨_, h.tokenize_eq, ?_⟩
    rw [lazyExpression_ident, atom, hregister, hdotted, hupper]
    rfl

end References

section Definitions

/-- How a name comes to be defined. -/
inductive Route where
  | label
  /-- `NAME = expression` or `.EQU NAME, expression`. -/
  | equation
deriving DecidableEq, Repr

/-- The command by itself defines the name. -/
def Command.Introduces (c : Command) (name : String) : Route → Prop
  | .label => name ∈ c.header.labels
  | .equation => ∃ h v, c = .single h (.equate name v)

variable {decimal : Bool} {pos : Position} {ts rest : List Token} {name : String}

/-- A label is the name of a token, of no register and without a dot. The recursion is that of reading
labels, two tokens at a time. -/
theorem takeLabels_eq_ok : ∀ {ts rest : List Token} {labels : List String},
    takeLabels ts = .ok (labels, rest) →
      rest ⊆ ts ∧ ∀ label ∈ labels, ∃ t ∈ ts, ∃ name, t.lexeme = .ident name ∧
        label = Text.upper name ∧ Register.ofName? name = none ∧ isDotted name = false
  | [], _, _, h => by
    cases h
    exact ⟨fun u hu => hu, by simp⟩
  | [t], _, _, h => by
    cases h
    exact ⟨fun u hu => hu, by simp⟩
  | t :: colon :: more, rest, labels, h => by
    cases hlexeme : t.lexeme with
    | ident name =>
      simp only [takeLabels, hlexeme] at h
      by_cases hlabel : colon.lexeme = .punct ':' ∧ isDotted name = false
      · rw [if_pos hlabel] at h
        by_cases hregister : (Register.ofName? name).isSome = true
        · rw [if_pos hregister] at h
          cases h
        · rw [if_neg hregister] at h
          obtain ⟨⟨others, after⟩, hmore, h⟩ := bind_eq_ok.mp h
          cases h
          obtain ⟨hrest, hothers⟩ := takeLabels_eq_ok hmore
          have hsub : more ⊆ t :: colon :: more := fun u hu => .tail _ (.tail _ hu)
          refine ⟨List.Subset.trans hrest hsub, List.forall_mem_cons.mpr ⟨?_, ?_⟩⟩
          · exact ⟨t, List.mem_cons_self, name, hlexeme, rfl, by simpa using hregister, hlabel.2⟩
          · intro label hmem
            obtain ⟨u, hu, hspelled⟩ := hothers label hmem
            exact ⟨u, hsub hu, hspelled⟩
      · rw [if_neg hlabel] at h
        cases h
        exact ⟨fun u hu => hu, by simp⟩
    | _ =>
      simp only [takeLabels, hlexeme] at h
      cases h
      exact ⟨fun u hu => hu, by simp⟩

theorem arguments_eq_equate {k : Keyword} {v : Lazy}
    (h : arguments decimal k ts = .ok (.equate name v, rest)) :
    ∃ t ∈ ts, ∃ spelled, t.lexeme = .ident spelled ∧ name = Text.upper spelled := by
  cases keyword?_of_arguments h
  unfold arguments at h
  obtain ⟨⟨found, more⟩, hname, h⟩ := bind_eq_ok.mp h
  obtain ⟨more, -, h⟩ := bind_eq_ok.mp h
  obtain ⟨⟨v, more⟩, -, h⟩ := bind_eq_ok.mp h
  cases h
  unfold expectName at hname
  split at hname
  · next t after =>
    split at hname
    · next spelled hspelled =>
      cases hname
      exact ⟨t, List.mem_cons_self, spelled, hspelled, rfl⟩
    · cases hname
  · cases hname

/-- Every name that a statement defines is the name of a token. -/
theorem exists_token_of_introduces {s : Statement} (hs : s.Formed decimal pos ts) {route : Route}
    (h : s.head.Introduces name route) :
    ∃ t ∈ ts, ∃ spelled, t.lexeme = .ident spelled ∧ name = Text.upper spelled ∧
      (route = .label → Register.ofName? spelled = none ∧ isDotted spelled = false) := by
  have hlabel : ∀ labels rest, takeLabels ts = .ok (labels, rest) → name ∈ labels →
      ∃ t ∈ ts, ∃ spelled, t.lexeme = .ident spelled ∧ name = Text.upper spelled ∧
        (route = .label → Register.ofName? spelled = none ∧ isDotted spelled = false) := by
    intro labels rest hlabels hmem
    obtain ⟨t, ht, spelled, hname, hupper, hregister, hdotted⟩ :=
      (takeLabels_eq_ok hlabels).2 name hmem
    exact ⟨t, ht, spelled, hname, hupper, fun _ => ⟨hregister, hdotted⟩⟩
  cases route with
  | label =>
    cases hs with
    | labels hlabels => exact hlabel _ _ hlabels h
    | equation hlabels => exact hlabel _ _ hlabels h
    | directive hlabels => exact hlabel _ _ hlabels h
    | block hlabels => exact hlabel _ _ hlabels h
    | instruction hlabels => exact hlabel _ _ hlabels h
  | equation =>
    obtain ⟨header, v, hhead⟩ := h
    cases hs with
    | labels => cases hhead
    | block => cases hhead
    | instruction => cases hhead
    | @equation _ t _ _ spelled _ hlabels hname _ _ =>
      cases hhead
      have ht := (takeLabels_eq_ok hlabels).1 List.mem_cons_self
      exact ⟨t, ht, spelled, hname, rfl, fun h => by cases h⟩
    | directive hlabels _ _ hargs =>
      cases hhead
      obtain ⟨t, ht, spelled, hname, hupper⟩ := arguments_eq_equate hargs
      have hts := (takeLabels_eq_ok hlabels).1 (List.mem_cons_of_mem _ ht)
      exact ⟨t, hts, spelled, hname, hupper, fun h => by cases h⟩

end Definitions

section Sources

/-- The commands of a file and those inside them. -/
def SourceFile.outline (f : SourceFile) : List Command :=
  Command.outlineAll ((Reader.commands f.name f.text).filterMap Except.toOption)

variable {f : SourceFile} {c : Command} {name : String}

/-- Each command of a file is what a line of it starts. -/
theorem exists_statement_of_mem_outline (hc : c ∈ f.outline) :
    ∃ line ts decimal pos s, tokenize line = .ok ts ∧ Statement.Formed decimal pos ts s ∧
      s.head = c := by
  have horder := Reader.inLineOrder_readAll (Reader.ofSource f.name f.text).lines.length
    (Reader.within_ofSource f.name f.text)
  obtain ⟨i, -, -, line, -, ⟨decimal, hread⟩, -⟩ := horder.parsed c hc
  cases hreading : (Reader.readLine f.name decimal (i + 1) line).1 with
  | statement s =>
    obtain ⟨ts, pos, hts, hformed⟩ := formed_of_readLine hreading
    rw [hreading] at hread
    exact ⟨line, ts, decimal, pos, s, hts, hformed, Option.some.inj hread⟩
  | _ =>
    rw [hreading] at hread
    cases hread

/-- What a file defines is in capitals the name of a token. A label is not a register, nor does it
start with a dot. -/
theorem exists_isIdent_of_introduces (hc : c ∈ f.outline) {route : Route}
    (h : c.Introduces name route) :
    ∃ spelled, IsIdent spelled ∧ name = Text.upper spelled ∧
      (route = .label → Register.ofName? spelled = none ∧ isDotted spelled = false) := by
  obtain ⟨line, ts, decimal, pos, s, hts, hformed, rfl⟩ := exists_statement_of_mem_outline hc
  obtain ⟨t, ht, spelled, hname, hupper, hlabel⟩ := exists_token_of_introduces hformed h
  exact ⟨spelled, isIdent_of_tokenize hts ht hname, hupper, hlabel⟩

end Sources

end Source

end Eleven

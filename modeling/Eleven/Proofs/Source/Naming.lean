import Eleven.Proofs.Lazy.Naming
import Eleven.Proofs.Source.Casing
import Eleven.Proofs.Source.Cutting
import Eleven.Source.Reader
import Mathlib.Data.List.Forall2

/-! Lines of tokens in which a constant has been given a name, or letters have changed their case,
are read as commands that differ in that constant only. -/
namespace Eleven.Source

open Eleven.Machine (Register)

/-- A name for an integer. It is no directive, and must not be a register. -/
structure Naming where
  name : String
  value : Int64
  isName : IsName name.toList
  notRegister : Register.ofName? name = none

namespace Naming

variable (c : Naming)

/-- The symbol of the name. -/
def key : String := Text.upper c.name

theorem isDotted_name : isDotted c.name = false := by
  obtain ⟨first, tail, hcs, hfirst, -⟩ := c.isName
  rw [isDotted, hcs, List.head?_cons]
  have hdot : first ≠ '.' := by
    rintro rfl
    revert hfirst
    decide
  simpa using hdot

theorem atom_name (decimal : Bool) : atom decimal (.ident c.name) = .ok (.name c.key) := by
  rw [atom, c.notRegister, c.isDotted_name]
  rfl

/-- A name is no constant. -/
theorem atom_ident_ne {decimal : Bool} {x : String} {n : Int64} :
    atom decimal (.ident x) ≠ .ok (.number n) := by
  intro h
  rw [atom] at h
  split_ifs at h
  cases h

abbrev SameInt : Lazy → Lazy → Prop := Lazy.SameInt c.key c.value

/-- A lexeme that is kept up to the case of its letters, and is not the name, or a constant that
becomes the name. -/
inductive TurnsLexeme (decimal : Bool) : Lexeme → Lexeme → Prop
  | kept {l l' : Lexeme} (hcase : l.SameButCase l')
    (h : ∀ x, l = .ident x → Text.upper x ≠ c.key) : TurnsLexeme decimal l l'
  | named (l : Lexeme) (h : atom decimal l = .ok (.number c.value)) :
    TurnsLexeme decimal l (.ident c.name)

abbrev TurnsTokens (decimal : Bool) : List Token → List Token → Prop :=
  List.Forall₂ fun t t' => c.TurnsLexeme decimal t.lexeme t'.lexeme

section Lexemes

variable {c} {decimal : Bool} {l l' : Lexeme} (h : c.TurnsLexeme decimal l l')
include h

theorem TurnsLexeme.punct_iff (x : Char) : l = .punct x ↔ l' = .punct x := by
  cases h with
  | kept hcase => cases hcase <;> simp
  | named h =>
    constructor
    · rintro rfl
      cases h
    · rintro ⟨⟩

theorem TurnsLexeme.of_ident {x : String} (hl : l = .ident x) :
    ∃ y, l' = .ident y ∧ SameName x y ∧ Text.upper x ≠ c.key := by
  cases h with
  | kept hcase h =>
    have hfresh := h x hl
    subst hl
    cases hcase with
    | ident hlower => exact ⟨_, rfl, sameName_of_lower hlower, hfresh⟩
  | named h =>
    subst hl
    exact absurd h atom_ident_ne

theorem TurnsLexeme.folded_eq {x : String} (hl : l = .ident x) : l'.folded = l.folded := by
  cases h with
  | kept hcase => exact Lexeme.sameButCase_iff.mp hcase
  | named h =>
    subst hl
    exact absurd h atom_ident_ne

theorem TurnsLexeme.registerOf? : registerOf? l' = registerOf? l := by
  cases h with
  | kept hcase =>
    cases hcase with
    | ident hlower => exact (sameName_of_lower hlower).register
    | _ => rfl
  | named h =>
    cases l with
    | ident x => exact absurd h atom_ident_ne
    | _ => exact c.notRegister

theorem TurnsLexeme.atom :
    Matched (fun e e' => c.SameInt e.toLazy e'.toLazy) (atom decimal l) (atom decimal l') := by
  cases h with
  | named h =>
    rw [h, c.atom_name]
    exact .ok Lazy.sameInt_named
  | kept hcase h =>
    cases hcase with
    | @number digits digits' hlower =>
      have hdigits : numeral? decimal digits' = numeral? decimal digits := by
        rw [← numeral?_lower, hlower, numeral?_lower]
      rw [Source.atom, Source.atom, hdigits]
      cases numeral? decimal digits with
      | none => exact .error _ _
      | some m => exact .ok (Lazy.sameInt_int m)
    | @ident x x' hlower =>
      obtain ⟨hupper, hdotted, hregister⟩ := sameName_of_lower hlower
      rw [Source.atom, Source.atom, hupper, hdotted, hregister]
      split_ifs
      · exact .error _ _
      · exact .error _ _
      · exact .ok (Lazy.sameInt_symbol (h x rfl))
    | text s =>
      rw [Source.atom]
      split
      · exact .ok (Lazy.sameInt_int _)
      · exact .error _ _
    | punct x => exact .error _ _

end Lexemes

section Expressions

variable {c} {decimal : Bool} {ts ts' : List Token}

/-- Readings of related results that leave related tokens. -/
abbrev Reads (c : Naming) (decimal : Bool) {α β : Type} (P : α → β → Prop)
    (r : α × List Token) (r' : β × List Token) : Prop :=
  P r.1 r'.1 ∧ c.TurnsTokens decimal r.2 r'.2

theorem matched_expectPunct (x : Char) (h : c.TurnsTokens decimal ts ts') :
    Matched (c.TurnsTokens decimal) (expectPunct x ts) (expectPunct x ts') := by
  cases h with
  | nil => exact .error _ _
  | cons ht hts =>
    unfold expectPunct
    simp only [← ht.punct_iff]
    split_ifs
    · exact .ok hts
    · exact .error _ _

theorem acceptPunct_turns (x : Char) (h : c.TurnsTokens decimal ts ts') :
    ∃ found rest rest', acceptPunct x ts = (found, rest) ∧ acceptPunct x ts' = (found, rest') ∧
      c.TurnsTokens decimal rest rest' := by
  cases h with
  | nil => exact ⟨false, [], [], rfl, rfl, .nil⟩
  | @cons t t' rest rest' ht hts =>
    unfold acceptPunct
    by_cases hx : t.lexeme = .punct x
    · exact ⟨true, rest, rest', if_pos hx, if_pos ((ht.punct_iff x).mp hx), hts⟩
    · have hx' : t'.lexeme ≠ .punct x := fun hx' => hx ((ht.punct_iff x).mpr hx')
      exact ⟨false, t :: rest, t' :: rest', if_neg hx, if_neg hx', .cons ht hts⟩

/-- Expressions whose values come to the same. -/
abbrev SameExpr (c : Naming) (e e' : Expr) : Prop := c.SameInt e.toLazy e'.toLazy

mutual

theorem matched_sum (room : Nat) {ts ts' : List Token} (h : c.TurnsTokens decimal ts ts') :
    Matched (c.Reads decimal c.SameExpr) (sum decimal room ts) (sum decimal room ts') := by
  unfold sum
  cases room with
  | zero => exact .error _ _
  | succ room =>
    refine (matched_product room h).bind ?_
    rintro ⟨e, rest⟩ ⟨e', rest'⟩ ⟨he, hrest⟩
    exact matched_sumTail room he hrest

theorem matched_sumTail (room : Nat) {e e' : Expr} (he : c.SameExpr e e') {ts ts' : List Token}
    (h : c.TurnsTokens decimal ts ts') :
    Matched (c.Reads decimal c.SameExpr) (sumTail decimal room e ts)
      (sumTail decimal room e' ts') := by
  unfold sumTail
  cases room with
  | zero => exact .error _ _
  | succ room =>
    cases h with
    | nil => exact .ok ⟨he, .nil⟩
    | @cons t t' rest rest' ht hts =>
      dsimp only
      simp only [← ht.punct_iff]
      split_ifs
      · refine (matched_product room hts).bind ?_
        rintro ⟨f, rest⟩ ⟨f', rest'⟩ ⟨hf, hrest⟩
        have hef : c.SameExpr (.add e f) (.add e' f') := he.add hf
        exact matched_sumTail room hef hrest
      · refine (matched_product room hts).bind ?_
        rintro ⟨f, rest⟩ ⟨f', rest'⟩ ⟨hf, hrest⟩
        have hef : c.SameExpr (.sub e f) (.sub e' f') := he.sub hf
        exact matched_sumTail room hef hrest
      · exact .ok ⟨he, .cons ht hts⟩

theorem matched_product (room : Nat) {ts ts' : List Token} (h : c.TurnsTokens decimal ts ts') :
    Matched (c.Reads decimal c.SameExpr) (product decimal room ts) (product decimal room ts') := by
  unfold product
  cases room with
  | zero => exact .error _ _
  | succ room =>
    refine (matched_factor room h).bind ?_
    rintro ⟨e, rest⟩ ⟨e', rest'⟩ ⟨he, hrest⟩
    exact matched_productTail room he hrest

theorem matched_productTail (room : Nat) {e e' : Expr} (he : c.SameExpr e e') {ts ts' : List Token}
    (h : c.TurnsTokens decimal ts ts') :
    Matched (c.Reads decimal c.SameExpr) (productTail decimal room e ts)
      (productTail decimal room e' ts') := by
  unfold productTail
  cases room with
  | zero => exact .error _ _
  | succ room =>
    cases h with
    | nil => exact .ok ⟨he, .nil⟩
    | @cons t t' rest rest' ht hts =>
      dsimp only
      simp only [← ht.punct_iff]
      split_ifs
      · refine (matched_factor room hts).bind ?_
        rintro ⟨f, rest⟩ ⟨f', rest'⟩ ⟨hf, hrest⟩
        have hef : c.SameExpr (.mul e f) (.mul e' f') := he.mul hf
        exact matched_productTail room hef hrest
      · refine (matched_factor room hts).bind ?_
        rintro ⟨f, rest⟩ ⟨f', rest'⟩ ⟨hf, hrest⟩
        have hef : c.SameExpr (.div e f) (.div e' f') := he.div hf
        exact matched_productTail room hef hrest
      · exact .ok ⟨he, .cons ht hts⟩

theorem matched_factor (room : Nat) {ts ts' : List Token} (h : c.TurnsTokens decimal ts ts') :
    Matched (c.Reads decimal c.SameExpr) (factor decimal room ts) (factor decimal room ts') := by
  unfold factor
  cases room with
  | zero => exact .error _ _
  | succ room =>
    cases h with
    | nil => exact .error _ _
    | @cons t t' rest rest' ht hts =>
      dsimp only
      simp only [← ht.punct_iff]
      split_ifs
      · refine (matched_factor room hts).bind ?_
        rintro ⟨e, rest⟩ ⟨e', rest'⟩ ⟨he, hrest⟩
        exact .ok ⟨he.neg, hrest⟩
      · exact matched_factor room hts
      · refine (matched_sum room hts).bind ?_
        rintro ⟨e, rest⟩ ⟨e', rest'⟩ ⟨he, hrest⟩
        refine (matched_expectPunct ')' hrest).bind ?_
        intro rest rest' hrest
        exact .ok ⟨he, hrest⟩
      · refine ht.atom.bind ?_
        intro e e' he
        exact .ok ⟨he, hts⟩

end

theorem matched_lazyExpression (h : c.TurnsTokens decimal ts ts') :
    Matched (c.Reads decimal c.SameInt) (lazyExpression decimal ts)
      (lazyExpression decimal ts') := by
  unfold lazyExpression expression
  rw [h.length_eq]
  refine (matched_sum _ h).bind ?_
  rintro ⟨e, rest⟩ ⟨e', rest'⟩ ⟨he, hrest⟩
  exact .ok ⟨he, hrest⟩

theorem matched_expressionList (room : Nat) (h : c.TurnsTokens decimal ts ts') :
    Matched (c.Reads decimal (List.Forall₂ c.SameInt)) (expressionList decimal room ts)
      (expressionList decimal room ts') := by
  induction room generalizing ts ts' with
  | zero => exact .error _ _
  | succ room ih =>
    unfold expressionList
    refine (matched_lazyExpression h).bind ?_
    rintro ⟨v, rest⟩ ⟨v', rest'⟩ ⟨hv, hrest⟩
    obtain ⟨found, more, more', hmore, hmore', hturns⟩ := acceptPunct_turns ',' hrest
    dsimp only
    rw [hmore, hmore']
    cases found with
    | false => exact .ok ⟨.cons hv .nil, hturns⟩
    | true =>
      refine (ih hturns).bind ?_
      rintro ⟨vs, rest⟩ ⟨vs', rest'⟩ ⟨hvs, hrest⟩
      exact .ok ⟨.cons hv hvs, hrest⟩

end Expressions

/-- Operands that differ in the value of their word only, and in how they are written. -/
structure TurnsOperand (o o' : Operand) : Prop where
  kind : o'.kind = o.kind
  mode : o'.mode = o.mode
  register : o'.register = o.register
  value : Option.Rel c.SameInt o.value o'.value
  relative : o'.relative = o.relative

section Operands

variable {c} {decimal deferred : Bool} {ts ts' : List Token}

theorem turns_inMode (m : Machine.Mode) (r : Register) :
    c.TurnsOperand (.inMode m r) (.inMode m r) := ⟨rfl, rfl, rfl, .none, rfl⟩

theorem turns_withWord (m : Machine.Mode) (r : Register) {v v' : Lazy} (h : c.SameInt v v') :
    c.TurnsOperand (.withWord m r v) (.withWord m r v') := ⟨rfl, rfl, rfl, .some h, rfl⟩

theorem turns_relativeTo (m : Machine.Mode) {v v' : Lazy} (h : c.SameInt v v') :
    c.TurnsOperand (.relativeTo m v) (.relativeTo m v') := ⟨rfl, rfl, rfl, .some h, rfl⟩

theorem TurnsOperand.setRaw {o o' : Operand} (h : c.TurnsOperand o o') (raw raw' : String) :
    c.TurnsOperand { o with raw := raw } { o' with raw := raw' } :=
  ⟨h.kind, h.mode, h.register, h.value, h.relative⟩

theorem rel_parenthesized? (h : c.TurnsTokens decimal ts ts') :
    Option.Rel (c.Reads decimal Eq) (parenthesized? ts) (parenthesized? ts') := by
  cases h with
  | nil => exact .none
  | cons ha h =>
    cases h with
    | nil => exact .none
    | @cons r r' _ _ hr h =>
      cases h with
      | nil => exact .none
      | cons hb h =>
        unfold parenthesized?
        simp only [← ha.punct_iff, ← hb.punct_iff, hr.registerOf?]
        split_ifs
        · cases registerOf? r.lexeme with
          | none => exact .none
          | some reg => exact .some ⟨rfl, h⟩
        · exact .none

theorem rel_autoDecrement? (h : c.TurnsTokens decimal ts ts') :
    Option.Rel (c.Reads decimal Eq) (autoDecrement? ts) (autoDecrement? ts') := by
  cases h with
  | nil => exact .none
  | cons ht h =>
    unfold autoDecrement?
    simp only [← ht.punct_iff]
    split_ifs
    · exact rel_parenthesized? h
    · exact .none

theorem reads_afterRegister (r : Register) (h : c.TurnsTokens decimal ts ts') :
    c.Reads decimal c.TurnsOperand (afterRegister deferred r ts) (afterRegister deferred r ts') := by
  obtain ⟨found, rest, rest', hrest, hrest', hturns⟩ := acceptPunct_turns '+' h
  unfold afterRegister
  rw [hrest, hrest']
  cases found with
  | true => exact ⟨turns_inMode _ r, hturns⟩
  | false =>
    cases deferred with
    | true => exact ⟨turns_withWord _ r (Lazy.sameInt_int 0), hturns⟩
    | false => exact ⟨turns_inMode _ r, hturns⟩

theorem matched_indexed (h : c.TurnsTokens decimal ts ts') :
    Matched (c.Reads decimal c.TurnsOperand) (indexed decimal deferred ts)
      (indexed decimal deferred ts') := by
  unfold indexed
  refine (matched_lazyExpression h).bind ?_
  rintro ⟨v, rest⟩ ⟨v', rest'⟩ ⟨hv, hrest⟩
  have hreg := rel_parenthesized? hrest
  dsimp only
  generalize parenthesized? rest = x at hreg ⊢
  generalize parenthesized? rest' = x' at hreg ⊢
  cases hreg with
  | none => exact .ok ⟨turns_relativeTo _ hv, hrest⟩
  | @some r r' hr =>
    obtain ⟨r, after⟩ := r
    obtain ⟨r', after'⟩ := r'
    obtain ⟨rfl, hafter⟩ := hr
    exact .ok ⟨turns_withWord _ r hv, hafter⟩

theorem matched_addressBody (h : c.TurnsTokens decimal ts ts') :
    Matched (c.Reads decimal c.TurnsOperand) (addressBody decimal deferred ts)
      (addressBody decimal deferred ts') := by
  obtain ⟨found, rest, rest', hrest, hrest', hturns⟩ := acceptPunct_turns '#' h
  have hdecrement := rel_autoDecrement? h
  have hparens := rel_parenthesized? h
  unfold addressBody
  rw [hrest, hrest']
  cases found with
  | true =>
    refine (matched_lazyExpression hturns).bind ?_
    rintro ⟨v, rest⟩ ⟨v', rest'⟩ ⟨hv, hrest⟩
    exact .ok ⟨turns_withWord _ _ hv, hrest⟩
  | false =>
    dsimp only
    generalize autoDecrement? ts = x at hdecrement ⊢
    generalize autoDecrement? ts' = x' at hdecrement ⊢
    cases hdecrement with
    | @some r r' hr =>
      obtain ⟨r, after⟩ := r
      obtain ⟨r', after'⟩ := r'
      obtain ⟨rfl, hafter⟩ := hr
      exact .ok ⟨turns_inMode _ r, hafter⟩
    | none =>
      dsimp only
      generalize parenthesized? ts = x at hparens ⊢
      generalize parenthesized? ts' = x' at hparens ⊢
      cases hparens with
      | @some r r' hr =>
        obtain ⟨r, after⟩ := r
        obtain ⟨r', after'⟩ := r'
        obtain ⟨rfl, hafter⟩ := hr
        exact .ok (reads_afterRegister r hafter)
      | none =>
        cases h with
        | nil => exact matched_indexed .nil
        | @cons t t' _ _ ht hts =>
          dsimp only
          rw [ht.registerOf?]
          cases registerOf? t.lexeme with
          | some r => exact .ok ⟨turns_inMode _ r, hts⟩
          | none => exact matched_indexed (.cons ht hts)

theorem matched_operandBody (kind : OperandKind) (h : c.TurnsTokens decimal ts ts') :
    Matched (c.Reads decimal c.TurnsOperand) (operandBody decimal kind ts)
      (operandBody decimal kind ts') := by
  cases kind with
  | address =>
    obtain ⟨found, rest, rest', hrest, hrest', hturns⟩ := acceptPunct_turns '@' h
    unfold operandBody address
    dsimp only
    rw [hrest, hrest']
    exact matched_addressBody hturns
  | register =>
    cases h with
    | nil => exact .error _ _
    | @cons t t' _ _ ht hts =>
      unfold operandBody registerOperand
      dsimp only
      rw [ht.registerOf?]
      cases registerOf? t.lexeme with
      | none => exact .error _ _
      | some r => exact .ok ⟨⟨rfl, rfl, rfl, .none, rfl⟩, hts⟩
  | expression =>
    obtain ⟨found, rest, rest', hrest, hrest', hturns⟩ := acceptPunct_turns '#' h
    unfold operandBody expressionOperand
    dsimp only
    rw [hrest, hrest']
    refine (matched_lazyExpression hturns).bind ?_
    rintro ⟨v, rest⟩ ⟨v', rest'⟩ ⟨hv, hrest⟩
    exact .ok ⟨⟨rfl, rfl, rfl, .some hv, rfl⟩, hrest⟩

theorem matched_operand (kind : OperandKind) (h : c.TurnsTokens decimal ts ts') :
    Matched (c.Reads decimal c.TurnsOperand) (operand decimal kind ts)
      (operand decimal kind ts') := by
  unfold operand
  refine (matched_operandBody kind h).bind ?_
  rintro ⟨o, rest⟩ ⟨o', rest'⟩ ⟨ho, hrest⟩
  cases hrest with
  | nil => exact .ok ⟨ho.setRaw _ _, .nil⟩
  | cons ht hts =>
    dsimp only
    simp only [← ht.punct_iff]
    split_ifs
    · exact .ok ⟨ho.setRaw _ _, .cons ht hts⟩
    · exact .error _ _

theorem matched_moreOperands (room : Nat) (kinds : List OperandKind)
    (h : c.TurnsTokens decimal ts ts') :
    Matched (List.Forall₂ c.TurnsOperand) (moreOperands decimal room kinds ts)
      (moreOperands decimal room kinds ts') := by
  induction room generalizing kinds ts ts' with
  | zero =>
    cases h with
    | nil => exact .ok .nil
    | cons => exact .ok .nil
  | succ room ih =>
    cases h with
    | nil => exact .ok .nil
    | cons ht hts =>
      unfold moreOperands
      refine (matched_expectPunct ',' (.cons ht hts)).bind ?_
      intro us us' hus
      refine (matched_operand _ hus).bind ?_
      rintro ⟨o, rest⟩ ⟨o', rest'⟩ ⟨ho, hrest⟩
      refine (ih kinds.tail hrest).bind ?_
      intro os os' hos
      exact .ok (.cons ho hos)

theorem matched_operands (kinds : List OperandKind) (h : c.TurnsTokens decimal ts ts') :
    Matched (List.Forall₂ c.TurnsOperand) (operands decimal kinds ts)
      (operands decimal kinds ts') := by
  cases h with
  | nil => exact .ok .nil
  | cons ht hts =>
    unfold operands
    refine (matched_operand _ (.cons ht hts)).bind ?_
    rintro ⟨o, rest⟩ ⟨o', rest'⟩ ⟨ho, hrest⟩
    dsimp only
    rw [hrest.length_eq]
    refine (matched_moreOperands _ kinds.tail hrest).bind ?_
    intro os os' hos
    exact .ok (.cons ho hos)

end Operands

end Naming

end Eleven.Source

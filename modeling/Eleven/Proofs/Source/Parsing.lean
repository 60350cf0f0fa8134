import Eleven.Proofs.Source.Expression
import Eleven.Proofs.Source.Reading
import Mathlib.Tactic.SplitIfs

/-! Commands from the lexemes of their lines. -/
namespace Eleven.Source

/-- Nothing follows, or a comma. -/
def AtEnd (ts : List Token) : Prop := ∀ t ∈ ts.head?, t.lexeme = .punct ','

theorem atEnd_nil : AtEnd [] := by
  intro t ht
  cases ht

/-- The lexeme is an expression of its own, of this value. -/
structure IsAtom (l : Lexeme) (v : Lazy) : Prop where
  notMark : ∀ c, l ≠ .punct c
  value : ∃ e, atom false l = .ok e ∧ e.toLazy = v

theorem isAtom_number {n : Nat} (hn : n < 2 ^ 63) :
    IsAtom (.number (Text.bareOctal (Int64.ofNat n))) (.int (Int64.ofNat n)) :=
  ⟨by simp, .number (Int64.ofNat n), by rw [atom, Text.numeral?_bareOctal hn], rfl⟩

theorem isAtom_name {name : String} (hreg : Machine.Register.ofName? name = none)
    (hdot : isDotted name = false) : IsAtom (.ident name) (.symbol (Text.upper name)) :=
  ⟨by simp, .name (Text.upper name), by simp [atom, hreg, hdot], rfl⟩

section Expressions

variable {t : Token} {rest : List Token} {v : Lazy}

theorem AtEnd.stops (h : AtEnd rest) : StopsExpression rest := by
  intro u hu
  rw [h u hu]
  decide

/-- An atom is the tree of a leaf. -/
theorem IsAtom.written (h : IsAtom t.lexeme v) :
    ∃ x : ExprTree false, x.Written .sum ([t].map (·.lexeme)) ∧ x.expr.toLazy = v := by
  obtain ⟨e, he, hv⟩ := h.value
  obtain ⟨leaf, hleaf, rfl⟩ := Leaf.exists_of_atom he
  refine ⟨.leaf leaf, ?_, hv⟩
  rw [List.map_singleton, ← hleaf]
  exact (ExprTree.Written.leaf leaf).atPlace .sum

theorem lazyExpression_atom (ht : IsAtom t.lexeme v) (h : StopsExpression rest) :
    lazyExpression false (t :: rest) = .ok (v, rest) := by
  obtain ⟨x, hx, rfl⟩ := ht.written
  exact hx.lazyExpression_eq h

/-- Expressions of one lexeme each, with commas between them. -/
theorem expressionList_atoms {ls : List Lexeme} {vs : List Lazy} (h : List.Forall₂ IsAtom ls vs)
    (hne : ls ≠ []) {ts : List Token}
    (hts : ts.map (·.lexeme) = ls.intersperse (.punct ',')) (room : Nat) (hroom : ls.length ≤ room) :
    expressionList false room ts = .ok (vs, []) := by
  induction h generalizing ts room with
  | nil => exact absurd rfl hne
  | @cons l v ls vs hl hrest ih =>
    obtain ⟨room, rfl⟩ : ∃ r, room = r + 1 := ⟨room - 1, by simp at hroom; omega⟩
    cases hrest with
    | nil =>
      obtain ⟨t, rfl, ht⟩ := List.map_eq_singleton_iff.mp hts
      have hv : lazyExpression false [t] = .ok (v, []) :=
        lazyExpression_atom (by rwa [ht]) (by simp [StopsExpression])
      rw [expressionList, hv, ok_bind]
      rfl
    | @cons l' v' ls vs hl' hrest' =>
      rw [List.intersperse_cons_cons] at hts
      obtain ⟨t, rest, rfl, ht, hrest⟩ := List.map_eq_cons_iff.mp hts
      obtain ⟨comma, rest, rfl, hcomma, hrest⟩ := List.map_eq_cons_iff.mp hrest
      have hv : lazyExpression false (t :: comma :: rest) = .ok (v, comma :: rest) := by
        refine lazyExpression_atom (by rwa [ht]) (AtEnd.stops ?_)
        intro u hu
        cases hu
        exact hcomma
      have hvs := ih (by simp) hrest room (by simpa using hroom)
      rw [expressionList, hv, ok_bind]
      simp only [acceptPunct, hcomma, if_true, hvs, ok_bind]

end Expressions

theorem acceptPunct_of_ne {c : Char} {ts : List Token}
    (h : (ts.map (·.lexeme)).head? ≠ some (.punct c)) : acceptPunct c ts = (false, ts) := by
  cases ts with
  | nil => rfl
  | cons t ts =>
    have ht : ¬ t.lexeme = .punct c := by simpa using h
    rw [acceptPunct, if_neg ht]

section Lines

variable {line name : String} {ls : List Lexeme} {p : Command → Prop}

theorem takeLabels_of_command {t : Token} {ts : List Token}
    (h : (ts.map (·.lexeme)).head? ≠ some (.punct ':')) : takeLabels (t :: ts) = .ok ([], t :: ts) := by
  cases ts with
  | nil => rfl
  | cons u us =>
    have hu : ¬ u.lexeme = .punct ':' := by simpa using h
    unfold takeLabels
    split
    · simp [hu]
    · rfl

/-- A line that starts with the name of a command. -/
theorem yields_of_named (hline : Spelled line.toList (.ident name :: ls))
    (hcolon : ls.head? ≠ some (.punct ':')) (hdecimal : Text.upper name ≠ ".DECIMALNUMBERS")
    (hnamed : ∀ pos ts, ts.map (·.lexeme) = ls →
      ∃ c, named false [] pos (Text.upper name) ts = .ok (.command c) ∧ p c) : Yields line p := by
  refine ⟨hline.inner, fun file number => ?_⟩
  obtain ⟨ts, hts, hls⟩ := tokenize_of_spelled hline
  obtain ⟨t, rest, rfl, ht, hrest⟩ := List.map_eq_cons_iff.mp hls
  have hlabels := takeLabels_of_command (t := t) (hrest.symm ▸ hcolon)
  obtain ⟨c, hc, hp⟩ := hnamed
    { Reader.linePosition file number line with column := (t.column : Int) } rest hrest
  refine ⟨c, ?_, hp⟩
  have hstatement : statement false
      { Reader.linePosition file number line with column := (t.column : Int) } (t :: rest) =
      .ok (.command c) := by
    rw [statement, hlabels]
    simp only [ht]
    exact hc
  have hsets : setsDecimal (t :: rest) = false := by
    rw [setsDecimal, hlabels]
    simp [ht, hdecimal]
  rw [Reader.readLine, hts]
  simp only [Reader.readTokens, ht, reduceCtorEq, false_and, if_false, hstatement, hsets, Bool.or_false]

/-- A directive other than a block. -/
theorem yields_of_directive {k : Keyword} {o : Operation}
    (hline : Spelled line.toList (.ident name :: ls)) (hcolon : ls.head? ≠ some (.punct ':'))
    (hequals : ls.head? ≠ some (.punct '=')) (hdotted : isDotted (Text.upper name) = true)
    (hk : Keyword.ofName? (Text.upper name) = some k) (hblock : k ≠ .repetition)
    (hdecimal : Text.upper name ≠ ".DECIMALNUMBERS")
    (hargs : ∀ ts : List Token, ts.map (·.lexeme) = ls → arguments false k ts = .ok (o, [])) :
    Yields line fun c => ∃ pos, c = .single ⟨[], Text.upper name, pos⟩ o := by
  refine yields_of_named hline hcolon hdecimal fun pos ts hts => ?_
  have hmark : acceptPunct '=' ts = (false, ts) := acceptPunct_of_ne (hts.symm ▸ hequals)
  refine ⟨.single ⟨[], Text.upper name, pos⟩ o, ?_, pos, rfl⟩
  have hdirective : directive false ⟨[], Text.upper name, pos⟩ k ts =
      .ok (.command (.single ⟨[], Text.upper name, pos⟩ o)) := by
    unfold directive
    split
    · exact absurd rfl hblock
    · rw [hargs ts hts, ok_bind, finished]
  rw [named, hmark]
  simp only [hdotted, if_true, hk, hdirective]
  rfl

/-- A label alone. -/
theorem yields_label (hline : Spelled line.toList [.ident name, .punct ':'])
    (hdotted : isDotted name = false) (hreg : Machine.Register.ofName? name = none) :
    Yields line fun c => ∃ pos, c = .single ⟨[Text.upper name], "", pos⟩ .nothing := by
  refine ⟨hline.inner, fun file number => ?_⟩
  obtain ⟨ts, hts, hls⟩ := tokenize_of_spelled hline
  obtain ⟨t, rest, rfl, ht, hrest⟩ := List.map_eq_cons_iff.mp hls
  obtain ⟨colon, rfl, hcolon⟩ := List.map_eq_singleton_iff.mp hrest
  have hlabels : takeLabels [t, colon] = .ok ([Text.upper name], []) := by
    unfold takeLabels
    simp [ht, hcolon, hdotted, hreg, takeLabels]
  refine ⟨.single ⟨[Text.upper name], "",
    { Reader.linePosition file number line with column := (t.column : Int) }⟩ .nothing, ?_, _, rfl⟩
  rw [Reader.readLine, hts]
  simp only [Reader.readTokens, ht, reduceCtorEq, false_and, if_false, statement, setsDecimal,
    hlabels, Bool.or_false]

end Lines

section Operands

open Eleven.Machine (Mode Register)

variable {decimal : Bool} {t a b m : Token} {ts rest : List Token} {v : Lazy} {r : Register}

theorem acceptPunct_self {c : Char} (ht : t.lexeme = .punct c) (rest : List Token) :
    acceptPunct c (t :: rest) = (true, rest) := by
  rw [acceptPunct, if_pos ht]

theorem acceptPunct_eq_true {c : Char} (h : acceptPunct c ts = (true, rest)) :
    ∃ m, ts = m :: rest ∧ m.lexeme = .punct c := by
  cases ts with
  | nil => cases h
  | cons m us =>
    rw [acceptPunct] at h
    split_ifs at h with hm
    · cases h
      exact ⟨m, rfl, hm⟩
    · cases h

theorem parenthesized?_of_ne (ht : t.lexeme ≠ .punct '(') (rest : List Token) :
    parenthesized? (t :: rest) = none := by
  unfold parenthesized?
  split
  · rename_i heq
    cases heq
    simp [ht]
  · rfl

theorem parenthesized?_register (ha : a.lexeme = .punct '(') (hr : registerOf? t.lexeme = some r)
    (hb : b.lexeme = .punct ')') (rest : List Token) :
    parenthesized? (a :: t :: b :: rest) = some (r, rest) := by
  rw [parenthesized?, if_pos ⟨ha, hb⟩, hr]
  rfl

theorem parenthesized?_of_not_register (hr : registerOf? t.lexeme = none) (rest : List Token) :
    parenthesized? (a :: t :: rest) = none := by
  unfold parenthesized?
  split
  · rename_i heq
    cases heq
    simp [hr]
  · rfl

theorem autoDecrement?_of_ne (ht : t.lexeme ≠ .punct '-') (rest : List Token) :
    autoDecrement? (t :: rest) = none := by
  rw [autoDecrement?, if_neg ht]

theorem AtEnd.parenthesized? (h : AtEnd rest) : parenthesized? rest = none := by
  cases rest with
  | nil => rfl
  | cons u us => exact parenthesized?_of_ne (by rw [h u rfl]; decide) us

section Written

variable {x : ExprTree decimal} {p : Precedence}

/-- An expression that starts with a parenthesis goes on with what is no register. -/
theorem parenthesized?_written (h : x.Written p (ts.map (·.lexeme))) (rest : List Token) :
    parenthesized? (ts ++ rest) = none := by
  match ts with
  | [] => exact absurd rfl h.ne_nil
  | [a] => exact parenthesized?_of_ne (fun ha => h.ne_open (by rw [List.map_singleton, ha])) rest
  | a :: t :: ts => exact parenthesized?_of_not_register (h.registerOf?_eq (by simp)) (ts ++ rest)

/-- What follows a sign is an expression again. -/
theorem autoDecrement?_written (h : x.Written p (ts.map (·.lexeme))) (rest : List Token) :
    autoDecrement? (ts ++ rest) = none := by
  cases ts with
  | nil => exact absurd rfl h.ne_nil
  | cons t ts =>
    by_cases ht : t.lexeme = .punct '-'
    · rw [List.map_cons, ht] at h
      obtain ⟨y, hy⟩ := h.of_sign .minus rfl
      rw [List.cons_append, autoDecrement?, if_pos ht]
      exact parenthesized?_written hy rest
    · exact autoDecrement?_of_ne ht (ts ++ rest)

end Written

section AddressBody

variable (d : Bool)

theorem addressBody_hash (hm : m.lexeme = .punct '#')
    (hv : lazyExpression decimal ts = .ok (v, rest)) :
    addressBody decimal d (m :: ts) =
      .ok (.withWord (modeOf d .autoIncrement) Register.pc v, rest) := by
  rw [addressBody, acceptPunct_self hm]
  dsimp only
  rw [hv, ok_bind]

theorem addressBody_minus (hm : m.lexeme = .punct '-') (ha : a.lexeme = .punct '(')
    (hr : registerOf? t.lexeme = some r) (hb : b.lexeme = .punct ')') :
    addressBody decimal d (m :: a :: t :: b :: rest) =
      .ok (.inMode (modeOf d .autoDecrement) r, rest) := by
  have hhash : acceptPunct '#' (m :: a :: t :: b :: rest) = (false, m :: a :: t :: b :: rest) :=
    acceptPunct_of_ne (by simp [hm])
  rw [addressBody, hhash]
  simp only [autoDecrement?, hm, if_true, parenthesized?_register ha hr hb]

theorem addressBody_parentheses (ha : a.lexeme = .punct '(') (hr : registerOf? t.lexeme = some r)
    (hb : b.lexeme = .punct ')') :
    addressBody decimal d (a :: t :: b :: rest) = .ok (afterRegister d r rest) := by
  have hhash : acceptPunct '#' (a :: t :: b :: rest) = (false, a :: t :: b :: rest) :=
    acceptPunct_of_ne (by simp [ha])
  rw [addressBody, hhash]
  simp only [autoDecrement?_of_ne (t := a) (by simp [ha]), parenthesized?_register ha hr hb]

theorem addressBody_register (hr : registerOf? t.lexeme = some r) :
    addressBody decimal d (t :: rest) = .ok (.inMode (modeOf d .register) r, rest) := by
  have hmark : ∀ c, t.lexeme ≠ .punct c := by
    intro c hc
    rw [hc] at hr
    cases hr
  have hhash : acceptPunct '#' (t :: rest) = (false, t :: rest) :=
    acceptPunct_of_ne (by simpa using hmark '#')
  rw [addressBody, hhash]
  simp only [autoDecrement?_of_ne (hmark '-'), parenthesized?_of_ne (hmark '('), hr]

section Written

variable {x : ExprTree decimal}

/-- No shape with a register of its own is taken for an expression. -/
theorem addressBody_written (h : x.Written .sum (ts.map (·.lexeme))) (rest : List Token) :
    addressBody decimal d (ts ++ rest) = indexed decimal d (ts ++ rest) := by
  have hdecrement := autoDecrement?_written h rest
  have hparenthesized := parenthesized?_written h rest
  cases ts with
  | nil => exact absurd rfl h.ne_nil
  | cons t ts =>
    have hnot : Lexeme.punct '#' ∉ (t :: ts).map (·.lexeme) := h.not_mem (by decide)
    have hhash : acceptPunct '#' (t :: (ts ++ rest)) = (false, t :: (ts ++ rest)) := by
      refine acceptPunct_of_ne fun hm => hnot ?_
      have ht : t.lexeme = .punct '#' := by simpa using hm
      simp [ht]
    have hregister : registerOf? t.lexeme = none := h.registerOf?_eq (by simp)
    rw [List.cons_append] at hdecrement hparenthesized ⊢
    rw [addressBody, hhash]
    simp only [hdecrement, hparenthesized, hregister]

theorem addressBody_writtenIndexed (h : x.Written .sum (ts.map (·.lexeme)))
    (ha : a.lexeme = .punct '(') (hr : registerOf? m.lexeme = some r)
    (hb : b.lexeme = .punct ')') :
    addressBody decimal d (ts ++ a :: m :: b :: rest) =
      .ok (.withWord (modeOf d .index) r x.expr.toLazy, rest) := by
  have hstops : StopsExpression (a :: m :: b :: rest) := by
    intro u hu
    cases hu
    rw [ha]
    decide
  rw [addressBody_written d h, indexed, h.lazyExpression_eq hstops, ok_bind]
  simp only [parenthesized?_register ha hr hb]

theorem addressBody_writtenPlace (h : x.Written .sum (ts.map (·.lexeme))) (hrest : AtEnd rest) :
    addressBody decimal d (ts ++ rest) = .ok (.relativeTo (modeOf d .index) x.expr.toLazy, rest) := by
  rw [addressBody_written d h, indexed, h.lazyExpression_eq hrest.stops, ok_bind]
  simp only [hrest.parenthesized?]

end Written

theorem addressBody_indexed (ht : IsAtom t.lexeme v) (ha : a.lexeme = .punct '(')
    (hr : registerOf? m.lexeme = some r) (hb : b.lexeme = .punct ')') :
    addressBody false d (t :: a :: m :: b :: rest) =
      .ok (.withWord (modeOf d .index) r v, rest) := by
  obtain ⟨x, hx, rfl⟩ := ht.written
  exact addressBody_writtenIndexed d hx ha hr hb

theorem addressBody_place (ht : IsAtom t.lexeme v) (hrest : AtEnd rest) :
    addressBody false d (t :: rest) = .ok (.relativeTo (modeOf d .index) v, rest) := by
  obtain ⟨x, hx, rfl⟩ := ht.written
  exact addressBody_writtenPlace d hx hrest

end AddressBody

theorem address_at (hm : m.lexeme = .punct '@') :
    address decimal (m :: rest) = addressBody decimal true rest := by
  rw [address, acceptPunct_self hm]

theorem address_direct (ht : t.lexeme ≠ .punct '@') :
    address decimal (t :: rest) = addressBody decimal false (t :: rest) := by
  have hat : acceptPunct '@' (t :: rest) = (false, t :: rest) :=
    acceptPunct_of_ne (by simpa using ht)
  rw [address, hat]

/-- An operand is read up to the end of the line or a comma, and its spelling is kept. -/
theorem operand_eq_ok {k : OperandKind} {o : Operand} :
    operand decimal k ts = .ok (o, rest) ↔
      AtEnd rest ∧ ∃ o', operandBody decimal k ts = .ok (o', rest) ∧
        o = { o' with
          raw := String.join ((ts.take (ts.length - rest.length)).map (·.lexeme.spelling)) } := by
  unfold operand
  rw [bind_eq_ok]
  constructor
  · rintro ⟨⟨o', us⟩, hbody, h⟩
    cases us with
    | nil =>
      cases h
      exact ⟨atEnd_nil, o', hbody, rfl⟩
    | cons u us =>
      dsimp only at h
      split_ifs at h with hu
      cases h
      refine ⟨fun v hv => ?_, o', hbody, rfl⟩
      cases hv
      exact hu
  · rintro ⟨hrest, o', hbody, rfl⟩
    refine ⟨(o', rest), hbody, ?_⟩
    cases rest with
    | nil => rfl
    | cons u us => exact if_pos (hrest u rfl)

/-- The lexemes are read as one operand of the kind, with the property. -/
def ReadsOperand (k : OperandKind) (ls : List Lexeme) (q : Operand → Prop) : Prop :=
  ∀ ts rest, ts.map (·.lexeme) = ls → AtEnd rest →
    ∃ o, operandBody false k (ts ++ rest) = .ok (o, rest) ∧ ∀ raw, q { o with raw := raw }

theorem ReadsOperand.operand {k : OperandKind} {ls : List Lexeme} {q : Operand → Prop}
    (h : ReadsOperand k ls q) {ts : List Token} (hts : ts.map (·.lexeme) = ls)
    (hrest : AtEnd rest) : ∃ o, operand false k (ts ++ rest) = .ok (o, rest) ∧ q o := by
  obtain ⟨o, ho, hq⟩ := h ts rest hts hrest
  exact ⟨_, operand_eq_ok.mpr ⟨hrest, o, ho, rfl⟩, hq _⟩

theorem moreOperands_nil (room : Nat) (kinds : List OperandKind) :
    moreOperands false room kinds [] = .ok [] := by
  cases room <;> rfl

theorem operands_one {kinds : List OperandKind} {ls : List Lexeme} {q : Operand → Prop}
    (h : ReadsOperand (kinds.headD .address) ls q) (hne : ls ≠ []) {ts : List Token}
    (hts : ts.map (·.lexeme) = ls) : ∃ o, operands false kinds ts = .ok [o] ∧ q o := by
  obtain ⟨o, ho, hq⟩ := h.operand hts atEnd_nil
  rw [List.append_nil] at ho
  cases ts with
  | nil => exact absurd hts.symm hne
  | cons t ts =>
    refine ⟨o, ?_, hq⟩
    rw [operands, ho, ok_bind]
    rfl

theorem operands_two {kinds : List OperandKind} {ls ls' : List Lexeme} {q q' : Operand → Prop}
    (h : ReadsOperand (kinds.headD .address) ls q)
    (h' : ReadsOperand (kinds.tail.headD .address) ls' q') (hne : ls ≠ []) {ts : List Token}
    (hts : ts.map (·.lexeme) = ls ++ .punct ',' :: ls') :
    ∃ o o', operands false kinds ts = .ok [o, o'] ∧ q o ∧ q' o' := by
  obtain ⟨first, rest, rfl, hfirst, hrest⟩ := List.map_eq_append_iff.mp hts
  obtain ⟨comma, second, rfl, hcomma, hsecond⟩ := List.map_eq_cons_iff.mp hrest
  have hend : AtEnd (comma :: second) := by
    intro u hu
    cases hu
    exact hcomma
  obtain ⟨o, ho, hq⟩ := h.operand hfirst hend
  obtain ⟨o', ho', hq'⟩ := h'.operand hsecond atEnd_nil
  rw [List.append_nil] at ho'
  cases first with
  | nil => exact absurd hfirst.symm hne
  | cons t ts =>
    refine ⟨o, o', ?_, hq, hq'⟩
    rw [List.cons_append] at ho ⊢
    rw [operands, ho, ok_bind]
    dsimp only
    rw [List.length_cons, moreOperands, expectPunct, if_pos hcomma, ok_bind, ho', ok_bind]
    · dsimp only
      rw [moreOperands_nil, ok_bind, ok_bind]
    · exact List.cons_ne_nil comma second

end Operands

/-- An instruction. -/
theorem yields_of_instruction {line : String} {i : Machine.Instruction} {ls : List Lexeme}
    {q : List Operand → Prop} (hline : Spelled line.toList (.ident i.name :: ls))
    (hcolon : ls.head? ≠ some (.punct ':')) (hequals : ls.head? ≠ some (.punct '='))
    (hname : Text.upper i.name = i.name) (hdotted : isDotted i.name = false)
    (hi : Machine.Instruction.ofName? i.name = some i)
    (hos : ∀ ts : List Token, ts.map (·.lexeme) = ls →
      ∃ os, operands false (operandKinds i.kind) ts = .ok os ∧ q os) :
    Yields line fun c => ∃ pos os, c = .single ⟨[], i.name, pos⟩ (.instruction os) ∧ q os := by
  have hdecimal : Text.upper i.name ≠ ".DECIMALNUMBERS" := by
    rw [hname]
    intro h
    rw [h] at hdotted
    cases hdotted
  refine yields_of_named hline hcolon hdecimal fun pos ts hts => ?_
  have hmark : acceptPunct '=' ts = (false, ts) := acceptPunct_of_ne (hts.symm ▸ hequals)
  obtain ⟨os, hos, hq⟩ := hos ts hts
  refine ⟨.single ⟨[], i.name, pos⟩ (.instruction os), ?_, pos, os, rfl, hq⟩
  rw [hname, named, hmark]
  simp only [hdotted, Bool.false_eq_true, if_false, instruction, hi, hos, ok_bind]
  rfl

end Eleven.Source

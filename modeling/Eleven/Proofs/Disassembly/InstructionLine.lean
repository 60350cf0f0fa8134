import Eleven.Proofs.Disassembly.Rebuilding

/-! The line of a decoded instruction is read as an instruction that is encoded as the same
words. -/
namespace Eleven.Disassembly

open Eleven.Machine (Instruction unsignedWord wrapAddress)
open Eleven.Source (Operand OperandKind Lexeme Spelled Breaks breaks_nil breaks_cons)

/-- Texts with commas between them that are read as the operands of an instruction. -/
def PrintedAll (kinds : List OperandKind) (ss : List String) (q : List Operand → Prop) : Prop :=
  ∃ ls : List Lexeme, ls.head? ≠ some (.punct ':') ∧ ls.head? ≠ some (.punct '=') ∧
    Spelled (", ".intercalate ss).toList ls ∧
    ∀ ts : List Source.Token, ts.map (·.lexeme) = ls →
      ∃ os, Source.operands false kinds ts = .ok os ∧ q os

section Lists

variable {kinds : List OperandKind} {s s' : String} {ls ls' : List Lexeme} {p p' : Operand → Prop}
  {q : List Operand → Prop}

theorem Printed.head {k : OperandKind} (h : Printed k s ls p) :
    ls.head? ≠ some (.punct ':') ∧ ls.head? ≠ some (.punct '=') ∧ ls ≠ [] := by
  obtain ⟨l, hl, hcolon, hequals⟩ := h.first
  refine ⟨?_, ?_, ?_⟩
  · rw [Option.mem_def.mp hl]
    simpa using hcolon
  · rw [Option.mem_def.mp hl]
    simpa using hequals
  · rintro rfl
    cases hl

theorem printedAll_nil (hq : q []) : PrintedAll kinds [] q := by
  refine ⟨[], by simp, by simp, .nil, fun ts hts => ⟨[], ?_, hq⟩⟩
  cases List.map_eq_nil_iff.mp hts
  rfl

theorem printedAll_one (h : Printed (kinds.headD .address) s ls p) (hq : ∀ o, p o → q [o]) :
    PrintedAll kinds [s] q := by
  obtain ⟨hcolon, hequals, hne⟩ := h.head
  refine ⟨ls, hcolon, hequals, ?_, fun ts hts => ?_⟩
  · simpa using h.spelled breaks_nil .nil
  · obtain ⟨o, hos, ho⟩ := Source.operands_one h.reads hne hts
    exact ⟨[o], hos, hq o ho⟩

theorem printedAll_two (h : Printed (kinds.headD .address) s ls p)
    (h' : Printed (kinds.tail.headD .address) s' ls' p') (hq : ∀ a b, p a → p' b → q [a, b]) :
    PrintedAll kinds [s, s'] q := by
  obtain ⟨hcolon, hequals, hne⟩ := h.head
  have hhead : (ls ++ .punct ',' :: ls').head? = ls.head? := by
    obtain ⟨l, tail, rfl⟩ := List.exists_cons_of_ne_nil hne
    rfl
  refine ⟨ls ++ .punct ',' :: ls', hhead ▸ hcolon, hhead ▸ hequals, ?_, fun ts hts => ?_⟩
  · have hlast := h'.spelled breaks_nil .nil
    rw [List.append_nil, List.append_nil] at hlast
    have hcomma := h.spelled (breaks_cons (c := ',') rfl _) (.punct rfl (.blank (.inl rfl) hlast))
    simpa [String.intercalate_cons_cons] using hcomma
  · obtain ⟨a, b, hos, ha, hb⟩ := Source.operands_two h.reads h'.reads hne hts
    exact ⟨[a, b], hos, hq a b ha hb⟩

end Lists

/-- The words behind the first one of a decoded instruction, and how it is printed. -/
structure Decoded (labels : Labels) (i : Instruction) (p : Int64) (w : UInt16) (rest : List UInt8)
    (args : List Arg) (c : Cursor) (xs : List UInt16) : Prop where
  took : Took ⟨p + 2, rest, [w]⟩ xs c
  printed : p.toInt + (2 * xs.length + 2 : Nat) ≤ 0o200000 →
    ∀ {ss}, List.Forall₂ (Shown labels) args ss →
      PrintedAll (Source.operandKinds i.kind) ss (Reassembles labels i p w xs)

section Classes

variable {labels : Labels} {i : Instruction} {p : Int64} {w : UInt16} {rest : List UInt8}
  {args : List Arg} {c : Cursor} (hw : w &&& i.mask = i.opcode) (hlow : 0 ≤ p.toInt)
  (h : decodeArgs i w ⟨p + 2, rest, [w]⟩ = some (args, c))

theorem lowField_lt (w : UInt16) : (w &&& 0o77).toNat < 64 := by
  rw [Machine.toNat_and_of_low (k := 6) rfl]
  exact Nat.mod_lt _ (by decide)

theorem lowRegister_lt (w : UInt16) : (w &&& 7).toNat < 8 := by
  rw [Machine.toNat_and_of_low (k := 3) rfl]
  exact Nat.mod_lt _ (by decide)

theorem Rebuilds.reassembles {xs : List UInt16} {os : List Operand}
    (h : Rebuilds labels i p (w :: xs) os) (hk : branchTarget? i.kind p w = none) :
    Reassembles labels i p w xs os := by
  refine ⟨fun _ => h, fun hout => absurd ?_ hout⟩
  intro t ht
  rw [hk] at ht
  cases ht

include hw hlow h

theorem decoded_one (hk : i.kind = .one) : ∃ xs, Decoded labels i p w rest args c xs := by
  simp only [decodeArgs, hk] at h
  obtain ⟨⟨d, c'⟩, hd, h⟩ := Option.bind_eq_some_iff.mp h
  cases h
  obtain ⟨xs, htook, hprinted⟩ := printed_operandArg (lowField_lt w) hd
  refine ⟨xs, htook, fun hhigh ss hss => ?_⟩
  rcases hss with _ | ⟨hs, ⟨⟩⟩
  obtain ⟨ls, hp⟩ := hprinted hs
  rw [hk]
  exact printedAll_one hp fun o ho =>
    (rebuilds_one hw hlow hk ho hhigh).reassembles (by rw [hk]; rfl)

theorem decoded_two (hk : i.kind = .two) : ∃ xs, Decoded labels i p w rest args c xs := by
  simp only [decodeArgs, hk] at h
  obtain ⟨⟨s, c₁⟩, hs, h⟩ := Option.bind_eq_some_iff.mp h
  obtain ⟨⟨d, c₂⟩, hd, h⟩ := Option.bind_eq_some_iff.mp h
  cases h
  obtain ⟨xs, htook, hprinted⟩ := printed_operandArg (lowField_lt (w >>> 6)) hs
  obtain ⟨ys, htook', hprinted'⟩ := printed_operandArg (lowField_lt w) hd
  refine ⟨xs ++ ys, htook.trans htook', fun hhigh ss hss => ?_⟩
  rcases hss with _ | ⟨hs, _ | ⟨hs', ⟨⟩⟩⟩
  obtain ⟨ls, hp⟩ := hprinted hs
  obtain ⟨ls', hp'⟩ := hprinted' hs'
  rw [htook.address] at hp'
  rw [hk]
  exact printedAll_two hp hp' fun a b ha hb =>
    (rebuilds_two hw hlow hk ha hb hhigh).reassembles (by rw [hk]; rfl)

theorem decoded_register (hk : i.kind = .register) :
    ∃ xs, Decoded labels i p w rest args c xs := by
  simp only [decodeArgs, hk] at h
  obtain ⟨⟨d, c'⟩, hd, h⟩ := Option.bind_eq_some_iff.mp h
  cases h
  obtain ⟨xs, htook, hprinted⟩ := printed_operandArg (lowField_lt w) hd
  refine ⟨xs, htook, fun hhigh ss hss => ?_⟩
  rcases hss with _ | ⟨hs, _ | ⟨hs', ⟨⟩⟩⟩
  cases hs
  obtain ⟨ls, hp⟩ := hprinted hs'
  rw [hk]
  exact printedAll_two (printed_register (lowRegister_lt (w >>> 6))) hp fun a b ha hb =>
    (rebuilds_register hw hlow hk ha.1 ha.2 hb hhigh).reassembles (by rw [hk]; rfl)

theorem decoded_registerSource (hk : i.kind = .registerSource) :
    ∃ xs, Decoded labels i p w rest args c xs := by
  simp only [decodeArgs, hk] at h
  obtain ⟨⟨d, c'⟩, hd, h⟩ := Option.bind_eq_some_iff.mp h
  cases h
  obtain ⟨xs, htook, hprinted⟩ := printed_operandArg (lowField_lt w) hd
  refine ⟨xs, htook, fun hhigh ss hss => ?_⟩
  rcases hss with _ | ⟨hs, _ | ⟨hs', ⟨⟩⟩⟩
  cases hs'
  obtain ⟨ls, hp⟩ := hprinted hs
  rw [hk]
  exact printedAll_two hp (printed_register (lowRegister_lt (w >>> 6))) fun a b ha hb =>
    (rebuilds_registerSource hw hlow hk hb.1 hb.2 ha hhigh).reassembles (by rw [hk]; rfl)

theorem decoded_branch (hk : i.kind = .branch) : ∃ xs, Decoded labels i p w rest args c xs := by
  simp only [decodeArgs, hk] at h
  cases h
  refine ⟨[], .refl _, fun hhigh ss hss => ?_⟩
  rcases hss with _ | ⟨hs, ⟨⟩⟩
  obtain ⟨s, v, rfl, hv⟩ := hs.place
  obtain ⟨l, hl, hspelled⟩ := hv.atom
  rw [hk, deferredMark, if_neg (by decide), String.empty_append]
  exact printedAll_one (printed_expression hl hspelled) fun o ho =>
    reassembles_branch hw hlow hhigh hk ho.1 ho.2 hv

theorem decoded_sob (hk : i.kind = .sob) : ∃ xs, Decoded labels i p w rest args c xs := by
  simp only [decodeArgs, hk] at h
  cases h
  refine ⟨[], .refl _, fun hhigh ss hss => ?_⟩
  rcases hss with _ | ⟨hs, _ | ⟨hs', ⟨⟩⟩⟩
  cases hs
  obtain ⟨s, v, rfl, hv⟩ := hs'.place
  obtain ⟨l, hl, hspelled⟩ := hv.atom
  rw [hk, deferredMark, if_neg (by decide), String.empty_append]
  exact printedAll_two (printed_register (lowRegister_lt (w >>> 6))) (printed_expression hl hspelled)
    fun a o ha ho => reassembles_sob hw hlow hhigh hk ha.1 ha.2 ho.1 ho.2 hv

omit hlow

theorem decoded_zero (hk : i.kind = .zero) : ∃ xs, Decoded labels i p w rest args c xs := by
  simp only [decodeArgs, hk] at h
  cases h
  refine ⟨[], .refl _, fun _ ss hss => ?_⟩
  cases hss
  exact printedAll_nil ((rebuilds_zero hw hk).reassembles (by rw [hk]; rfl))

theorem decoded_rts (hk : i.kind = .rts) : ∃ xs, Decoded labels i p w rest args c xs := by
  simp only [decodeArgs, hk] at h
  cases h
  refine ⟨[], .refl _, fun _ ss hss => ?_⟩
  rcases hss with _ | ⟨hs, ⟨⟩⟩
  cases hs
  rw [hk]
  exact printedAll_one (printed_register (lowRegister_lt w)) fun o ho =>
    (rebuilds_rts hw hk ho.1 ho.2).reassembles (by rw [hk]; rfl)

theorem decoded_immediate (hi : i ∈ Instruction.table) (hk : i.kind = .immediate) :
    ∃ xs, Decoded labels i p w rest args c xs := by
  simp only [decodeArgs, hk] at h
  cases h
  refine ⟨[], .refl _, fun _ ss hss => ?_⟩
  rcases hss with _ | ⟨hs, ⟨⟩⟩
  cases hs
  have hsmall : (w &&& i.immediateField).toNat <<< i.shift < 2 ^ 63 := by
    have hlt := (w &&& i.immediateField).toNat_lt
    rw [(Instruction.immediate_layout i hi hk).1, Nat.shiftLeft_eq]
    omega
  rw [hk]
  exact printedAll_one (printed_expression (Source.isAtom_number hsmall) (spelled_octal hsmall))
    fun o ho => (rebuilds_immediate hw hi hk ho.1 ho.2).reassembles (by rw [hk]; rfl)

end Classes

theorem decoded_args {labels : Labels} {i : Instruction} {p : Int64} {w : UInt16}
    {rest : List UInt8} {args : List Arg} {c : Cursor} (hi : Instruction.ofWord? w = some i)
    (hlow : 0 ≤ p.toInt) (h : decodeArgs i w ⟨p + 2, rest, [w]⟩ = some (args, c)) :
    ∃ xs, Decoded labels i p w rest args c xs := by
  obtain ⟨hmem, hw⟩ := Instruction.ofWord?_eq_some hi
  cases hk : i.kind with
  | zero => exact decoded_zero hw h hk
  | one => exact decoded_one hw hlow h hk
  | two => exact decoded_two hw hlow h hk
  | register => exact decoded_register hw hlow h hk
  | registerSource => exact decoded_registerSource hw hlow h hk
  | rts => exact decoded_rts hw h hk
  | immediate => exact decoded_immediate hw h hmem hk
  | branch => exact decoded_branch hw hlow h hk
  | sob => exact decoded_sob hw hlow h hk
  | unassigned code =>
    simp only [decodeArgs, hk] at h
    cases h

section Lines

theorem spelled_blanks {blanks cs : List Char} {ls : List Lexeme}
    (hblanks : ∀ c ∈ blanks, c = ' ' ∨ c = '\t') (h : Spelled cs ls) : Spelled (blanks ++ cs) ls := by
  induction blanks with
  | nil => exact h
  | cons c blanks ih =>
    rw [List.forall_mem_cons] at hblanks
    exact .blank hblanks.1 (ih hblanks.2)

/-- The line of an instruction whose operands are printed like this. -/
def instructionLine (name : String) (ss : List String) : String :=
  if ss.isEmpty then "\t" ++ name else "\t" ++ padRight 6 name ++ " " ++ ", ".intercalate ss

theorem codeText_eq (labels : Labels) (l : Line) :
    codeText labels l = labelLine labels l.address ++
      (instructionLine l.mnemonic (labelledArgs labels l.args) ++ "\n") := by
  unfold codeText instructionLine
  dsimp only
  split_ifs
  · rfl
  · rfl

theorem spelled_instructionLine {name : String} (hname : isPrintedName name = true)
    {ss : List String} {ls : List Lexeme} (h : Spelled (", ".intercalate ss).toList ls) :
    Spelled (instructionLine name ss).toList (.ident name :: ls) := by
  cases ss with
  | nil =>
    cases h
    have hline := isPrintedName_spelled hname breaks_nil .nil
    rw [List.append_nil] at hline
    simpa [instructionLine] using Spelled.blank (.inr rfl) hline
  | cons s ss =>
    have hblanks : Spelled (List.replicate (6 - name.length) ' ' ++
        ' ' :: (", ".intercalate (s :: ss)).toList) ls :=
      spelled_blanks (fun _ hc => .inl (List.eq_of_mem_replicate hc)) (.blank (.inl rfl) h)
    have hbreaks : Breaks (List.replicate (6 - name.length) ' ' ++
        ' ' :: (", ".intercalate (s :: ss)).toList) := by
      cases 6 - name.length with
      | zero => exact breaks_cons rfl _
      | succ n => exact breaks_cons rfl _
    have hline := Spelled.blank (.inr rfl) (isPrintedName_spelled hname hbreaks hblanks)
    simpa [instructionLine, padRight] using hline

/-- A line that is spelled as the name of an instruction and its printed operands. -/
theorem yields_of_printed {i : Instruction} (hi : i ∈ Instruction.table) {ss : List String}
    {q : List Operand → Prop} (h : PrintedAll (Source.operandKinds i.kind) ss q) {line : String}
    (hline : ∀ {ls}, Spelled (", ".intercalate ss).toList ls →
      Spelled line.toList (.ident i.name :: ls)) :
    Source.Yields line fun c => ∃ pos os, c = .single ⟨[], i.name, pos⟩ (.instruction os) ∧ q os := by
  obtain ⟨ls, hcolon, hequals, hspelled, hreads⟩ := h
  obtain ⟨hprinted, hdotted, hname⟩ := instruction_names i hi
  exact Source.yields_of_instruction (hline hspelled) hcolon hequals
    (isPrintedName_upper hprinted) hdotted hname hreads

end Lines

end Eleven.Disassembly

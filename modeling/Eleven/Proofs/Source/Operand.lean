import Eleven.Proofs.Failure.Outcome
import Eleven.Source.Reader
import Mathlib.Tactic.SplitIfs

/-! The operands that lines can hold. -/
namespace Eleven.Source

open Eleven.Machine (Mode Register)

/-- The forms in which an operand can be written. -/
inductive Operand.Written : Operand → Prop
  | register (r : Register) (raw : String) (hr : r.number.toNat < 8) :
    Written ⟨.register, .register, r, none, false, raw⟩
  | expression (v : Lazy) (raw : String) :
    Written ⟨.expression, .register, ⟨0⟩, some v, false, raw⟩
  | plain (m : Mode) (r : Register) (raw : String) (hm : m.number.toNat < 6)
    (hr : r.number.toNat < 8) : Written ⟨.address, m, r, none, false, raw⟩
  | immediate (deferred : Bool) (v : Lazy) (raw : String) :
    Written ⟨.address, modeOf deferred .autoIncrement, .pc, some v, false, raw⟩
  | indexed (deferred : Bool) (r : Register) (v : Lazy) (raw : String) (hr : r.number.toNat < 8) :
    Written ⟨.address, modeOf deferred .index, r, some v, false, raw⟩
  | relative (deferred : Bool) (v : Lazy) (raw : String) :
    Written ⟨.address, modeOf deferred .index, .pc, some v, true, raw⟩

theorem Operand.Written.setRaw {o : Operand} (h : o.Written) (raw : String) :
    ({ o with raw := raw } : Operand).Written := by
  cases h with
  | register r _ hr => exact .register r raw hr
  | expression v => exact .expression v raw
  | plain m r _ hm hr => exact .plain m r raw hm hr
  | immediate deferred v => exact .immediate deferred v raw
  | indexed deferred r v _ hr => exact .indexed deferred r v raw hr
  | relative deferred v => exact .relative deferred v raw

theorem number_lt_of_ofName? {s : String} {r : Register} (h : Register.ofName? s = some r) :
    r.number.toNat < 8 := by
  unfold Register.ofName? at h
  split at h <;> cases h <;> decide

theorem number_lt_of_registerOf? {l : Lexeme} {r : Register} (h : registerOf? l = some r) :
    r.number.toNat < 8 := by
  cases l with
  | ident name => exact number_lt_of_ofName? h
  | number digits => cases h
  | text s => cases h
  | punct c => cases h

theorem number_lt_of_parenthesized? {ts rest : List Token} {r : Register}
    (h : parenthesized? ts = some (r, rest)) : r.number.toNat < 8 := by
  unfold parenthesized? at h
  split at h
  · split_ifs at h
    obtain ⟨r', hr', heq⟩ := Option.map_eq_some_iff.mp h
    cases heq
    exact number_lt_of_registerOf? hr'
  · cases h

theorem number_lt_of_autoDecrement? {ts rest : List Token} {r : Register}
    (h : autoDecrement? ts = some (r, rest)) : r.number.toNat < 8 := by
  unfold autoDecrement? at h
  split at h
  · split_ifs at h
    exact number_lt_of_parenthesized? h
  · cases h

theorem written_inMode {deferred : Bool} {m : Mode} {r : Register} (hm : m.number.toNat < 5)
    (hr : r.number.toNat < 8) : (Operand.inMode (modeOf deferred m) r).Written := by
  refine .plain _ r "" ?_ hr
  cases deferred with
  | false => exact Nat.lt_succ_of_lt hm
  | true =>
    change (m.number + 1).toNat < 6
    rw [UInt16.toNat_add]
    change (m.number.toNat + 1) % 65536 < 6
    omega

theorem written_afterRegister {deferred : Bool} {r : Register} (hr : r.number.toNat < 8)
    (ts : List Token) : (afterRegister deferred r ts).1.Written := by
  unfold afterRegister
  split
  · exact written_inMode (by decide) hr
  · cases deferred with
    | false => exact @written_inMode false .registerDeferred r (by decide) hr
    | true => exact .indexed true r (.int 0) "" hr

theorem written_indexed {decimal deferred : Bool} {ts rest : List Token} {o : Operand}
    (h : indexed decimal deferred ts = .ok (o, rest)) : o.Written := by
  obtain ⟨⟨v, rest'⟩, -, h⟩ := bind_eq_ok.mp h
  dsimp only at h
  split at h
  · rename_i r rest'' hp
    cases h
    exact .indexed deferred r v "" (number_lt_of_parenthesized? hp)
  · cases h
    exact .relative deferred v ""

theorem written_addressBody {decimal deferred : Bool} {ts rest : List Token} {o : Operand}
    (h : addressBody decimal deferred ts = .ok (o, rest)) : o.Written := by
  unfold addressBody at h
  split at h
  · obtain ⟨⟨v, rest'⟩, -, h⟩ := bind_eq_ok.mp h
    cases h
    exact .immediate deferred v ""
  · split at h
    · rename_i r rest' hd
      cases h
      exact written_inMode (by decide) (number_lt_of_autoDecrement? hd)
    · split at h
      · rename_i r rest' hp
        have ho : (afterRegister deferred r rest').1 = o := congrArg Prod.fst (Except.ok.inj h)
        exact ho ▸ written_afterRegister (number_lt_of_parenthesized? hp) rest'
      · split at h
        · split at h
          · rename_i r hr
            cases h
            exact written_inMode (by decide) (number_lt_of_registerOf? hr)
          · exact written_indexed h
        · exact written_indexed h

theorem written_operandBody {decimal : Bool} {kind : OperandKind} {ts rest : List Token}
    {o : Operand} (h : operandBody decimal kind ts = .ok (o, rest)) : o.Written := by
  cases kind with
  | address => exact written_addressBody h
  | register =>
    change registerOperand ts = _ at h
    unfold registerOperand at h
    split at h
    · cases h
    · split at h
      · rename_i r hr
        cases h
        exact .register r "" (number_lt_of_registerOf? hr)
      · cases h
  | expression =>
    obtain ⟨⟨v, rest'⟩, -, h⟩ := bind_eq_ok.mp h
    cases h
    exact .expression v ""

theorem written_operand {decimal : Bool} {kind : OperandKind} {ts rest : List Token} {o : Operand}
    (h : operand decimal kind ts = .ok (o, rest)) : o.Written := by
  obtain ⟨⟨o', rest'⟩, hbody, h⟩ := bind_eq_ok.mp h
  have hw := written_operandBody hbody
  dsimp only at h
  split at h
  · cases h
    exact hw.setRaw _
  · split_ifs at h
    cases h
    exact hw.setRaw _

theorem written_moreOperands {decimal : Bool} {room : Nat} {kinds : List OperandKind}
    {ts : List Token} {os : List Operand} (h : moreOperands decimal room kinds ts = .ok os) :
    ∀ o ∈ os, o.Written := by
  induction room generalizing kinds ts os with
  | zero => cases ts <;> cases h <;> simp
  | succ room ih =>
    cases ts with
    | nil => cases h; simp
    | cons t ts =>
      obtain ⟨ts', -, h⟩ := bind_eq_ok.mp h
      obtain ⟨⟨o, rest⟩, ho, h⟩ := bind_eq_ok.mp h
      obtain ⟨os', hos, h⟩ := bind_eq_ok.mp h
      cases h
      exact List.forall_mem_cons.mpr ⟨written_operand ho, ih hos⟩

theorem written_operands {decimal : Bool} {kinds : List OperandKind} {ts : List Token}
    {os : List Operand} (h : operands decimal kinds ts = .ok os) : ∀ o ∈ os, o.Written := by
  cases ts with
  | nil => cases h; simp
  | cons t ts =>
    obtain ⟨⟨o, rest⟩, ho, h⟩ := bind_eq_ok.mp h
    obtain ⟨os', hos, h⟩ := bind_eq_ok.mp h
    cases h
    exact List.forall_mem_cons.mpr ⟨written_operand ho, written_moreOperands hos⟩

/-- No directive makes an instruction. -/
theorem arguments_ne_instruction {decimal : Bool} {k : Keyword} {ts rest : List Token}
    {os : List Operand} : arguments decimal k ts ≠ .ok (.instruction os, rest) := by
  intro h
  cases k <;> simp only [arguments] at h <;> grind [bind_eq_ok]

theorem written_named {decimal : Bool} {labels : List String} {pos : Position} {name : String}
    {ts : List Token} {h : Header} {os : List Operand}
    (hn : named decimal labels pos name ts = .ok (.command (.single h (.instruction os)))) :
    ∀ o ∈ os, o.Written := by
  unfold named at hn
  split at hn
  · obtain ⟨⟨v, rest⟩, -, he⟩ := bind_eq_ok.mp (mapError_eq_ok.mp hn)
    unfold finished at he
    grind
  · split_ifs at hn
    · split at hn
      · cases hn
      · have hd := mapError_eq_ok.mp hn
        unfold directive at hd
        split at hd
        · split at hd <;> cases hd
        · split at hd
          · rename_i ho
            cases hd
            obtain ⟨⟨o, rest⟩, ha, hf⟩ := bind_eq_ok.mp ho
            unfold finished at hf
            split at hf
            · cases hf
              exact absurd ha arguments_ne_instruction
            · cases hf
          · cases hd
    · obtain ⟨os', hos, h'⟩ := bind_eq_ok.mp (mapError_eq_ok.mp hn)
      cases h'
      exact written_operands hos

/-- The operands of an instruction that a line holds. -/
theorem written_readLine {file : String} {decimal : Bool} {number : Nat} {line : String}
    {h : Header} {os : List Operand}
    (hl : (Reader.readLine file decimal number line).1 =
      .statement (.command (.single h (.instruction os)))) : ∀ o ∈ os, o.Written := by
  unfold Reader.readLine Reader.readTokens at hl
  split at hl
  · cases hl
  · dsimp only at hl
    split at hl
    · cases hl
    · split_ifs at hl
      split at hl
      · rename_i hs
        cases hl
        unfold statement at hs
        split at hs
        · cases hs
        · cases hs
        · dsimp only at hs
          split at hs
          · exact written_named hs
          · cases hs
      · cases hl

end Eleven.Source

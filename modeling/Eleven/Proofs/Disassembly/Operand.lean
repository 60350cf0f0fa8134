import Eleven.Disassembly.Line
import Eleven.Proofs.Assembly.Stores
import Eleven.Proofs.Machine.Table
import Eleven.Proofs.Source.Operand

/-! Operands that are written, stored and decoded again. -/
namespace Eleven.Disassembly

open Eleven.Assembly (extraWords storedWords)
open Eleven.Machine (Mode Register OperandClass wrapAddress wordsToBytes)
open Eleven.Source (Operand modeOf)

/-- What an operand of a class of instructions is decoded as, and the words it takes behind the
first one. -/
inductive DecodesTo (env : Env) (k : OperandClass) : Operand → Arg → List UInt16 → Prop
  | register (r : Register) (raw : String) :
    DecodesTo env k ⟨.register, .register, r, none, false, raw⟩ (.register r) []
  | plain (m : Mode) (r : Register) (raw : String) :
    DecodesTo env k ⟨.address, m, r, none, false, raw⟩ (.plain m r) []
  | immediate (v : Lazy) (n : Int64) (raw : String) (hv : v.intValue env = .ok n) :
    DecodesTo env k ⟨.address, .autoIncrement, .pc, some v, false, raw⟩
      (.immediate (wrapAddress n)) [wrapAddress n]
  | absolute (v : Lazy) (n : Int64) (raw : String) (hv : v.intValue env = .ok n) :
    DecodesTo env k ⟨.address, .autoIncrementDeferred, .pc, some v, false, raw⟩
      (.absolute (wrapAddress n)) [wrapAddress n]
  | indexed (deferred : Bool) (r : Register) (v : Lazy) (n : Int64) (raw : String) (hr : r ≠ .pc)
    (hv : v.intValue env = .ok n) :
    DecodesTo env k ⟨.address, modeOf deferred .index, r, some v, false, raw⟩
      (.indexed deferred (wrapAddress n) r) [wrapAddress n]
  /-- An index of the program counter is shown as the place it leads to. -/
  | beyond (deferred : Bool) (v : Lazy) (n : Int64) (a : UInt16) (raw : String)
    (hv : v.intValue env = .ok n) :
    DecodesTo env k ⟨.address, modeOf deferred .index, .pc, some v, false, raw⟩
      (.place deferred a) [wrapAddress n]
  | relative (deferred : Bool) (v : Lazy) (n : Int64) (x : UInt16) (raw : String)
    (hv : v.intValue env = .ok n) :
    DecodesTo env k ⟨.address, modeOf deferred .index, .pc, some v, true, raw⟩
      (.place deferred (wrapAddress n)) [x]
  | target (v : Lazy) (n : Int64) (raw : String) (hk : k = .branch ∨ k = .sob)
    (hv : v.intValue env = .ok n) :
    DecodesTo env k ⟨.expression, .register, ⟨0⟩, some v, false, raw⟩
      (.place false (wrapAddress n)) []
  | constant (v : Lazy) (n : Int64) (raw : String) (hk : k = .immediate)
    (hv : v.intValue env = .ok n) :
    DecodesTo env k ⟨.expression, .register, ⟨0⟩, some v, false, raw⟩ (.constant n) []

/-- An operand written as a step of the program counter, `(PC)+` or `@(PC)+`, takes the word behind
the instruction without having brought one. -/
def StepsCounter (o : Operand) : Prop :=
  o.kind = .address ∧ o.value = none ∧ o.register = .pc ∧
    (o.mode = .autoIncrement ∨ o.mode = .autoIncrementDeferred)

theorem next?_append (a : Int64) (w : UInt16) (ws : List UInt16) (rest : List UInt8)
    (taken : List UInt16) :
    Cursor.next? ⟨a, wordsToBytes (w :: ws) ++ rest, taken⟩ =
      some (w, ⟨a + 2, wordsToBytes ws ++ rest, w :: taken⟩) := by
  change some (Machine.wordOfBytes w.toUInt8 (w >>> 8).toUInt8,
    (⟨a + 2, wordsToBytes ws ++ rest, Machine.wordOfBytes w.toUInt8 (w >>> 8).toUInt8 :: taken⟩ :
      Cursor)) = _
  rw [Machine.wordOfBytes_bytesOfWord]

/-- An operand with a word, behind `count` words that belong to operands before it. -/
theorem operandArg_of_word {m : Mode} {r : Register} (hm : m.number.toNat < 8)
    (hr : r.number.toNat < 8) (hx : m.hasExtraWord r = true) (p : Int64) (count : Nat) (w : UInt16)
    (ws : List UInt16) (rest : List UInt8) (taken : List UInt16) :
    operandArg (Machine.operandField m r)
        ⟨p + Int64.ofNat (2 * count + 2), wordsToBytes (w :: ws) ++ rest, taken⟩ =
      some (extraArg m r w (p + Int64.ofNat (2 * (count + 1) + 2)),
        ⟨p + Int64.ofNat (2 * (count + 1) + 2), wordsToBytes ws ++ rest, w :: taken⟩) := by
  have hafter : p + Int64.ofNat (2 * count + 2) + 2 = p + Int64.ofNat (2 * (count + 1) + 2) := by
    rw [show 2 * (count + 1) + 2 = (2 * count + 2) + 2 by omega, Int64.ofNat_add (2 * count + 2),
      Int64.add_assoc]
    rfl
  rw [operandArg, Machine.fieldMode_operandField hm, Machine.fieldRegister_operandField m hr,
    ← hafter]
  simp only [hx, if_true, next?_append]
  rfl

theorem operandArg_plain {m : Mode} {r : Register} (hm : m.number.toNat < 8)
    (hr : r.number.toNat < 8) (hx : m.hasExtraWord r = false) (c : Cursor) :
    operandArg (Machine.operandField m r) c = some (.plain m r, c) := by
  rw [operandArg, Machine.fieldMode_operandField hm, Machine.fieldRegister_operandField m hr]
  simp [hx]

theorem hasExtraWord_plain {m : Mode} {r : Register} (hm : m.number.toNat < 6)
    (hs : r = .pc → m ≠ .autoIncrement ∧ m ≠ .autoIncrementDeferred) :
    m.hasExtraWord r = false := by
  have hindex : m ≠ .index := fun h => by rw [h] at hm; exact absurd hm (by decide)
  have hdeferred : m ≠ .indexDeferred := fun h => by rw [h] at hm; exact absurd hm (by decide)
  by_cases hr : r = .pc
  · simp [Mode.hasExtraWord, hindex, hdeferred, hs hr]
  · simp [Mode.hasExtraWord, hindex, hdeferred, hr]

theorem number_modeOf_index (deferred : Bool) : (modeOf deferred .index).number.toNat < 8 := by
  cases deferred <;> decide

theorem hasExtraWord_index (deferred : Bool) (r : Register) :
    (modeOf deferred .index).hasExtraWord r = true := by
  cases deferred <;> rfl

theorem extraArg_index_pc (deferred : Bool) (x : UInt16) (a : Int64) :
    extraArg (modeOf deferred .index) .pc x a =
      .place deferred (wrapAddress (a + Machine.signedWord x)) := by
  cases deferred <;> rfl

theorem extraArg_index {r : Register} (hr : r ≠ .pc) (deferred : Bool) (x : UInt16) (a : Int64) :
    extraArg (modeOf deferred .index) r x a = .indexed deferred x r := by
  have hi : modeOf deferred .index ≠ .autoIncrement := by cases deferred <;> decide
  have hd : modeOf deferred .index ≠ .autoIncrementDeferred := by cases deferred <;> decide
  rw [extraArg, if_neg hi, if_neg hd, if_neg hr]
  cases deferred <;> rfl

/-- The place that a distance from the end of its own word leads to. -/
theorem wrapAddress_distance (a n : Int64) :
    wrapAddress (a + Machine.signedWord (wrapAddress (n - a))) = wrapAddress n := by
  rw [Machine.wrapAddress_add, Machine.wrapAddress_signedWord, Machine.wrapAddress_sub,
    UInt16.add_comm, UInt16.sub_add_cancel]

/-- An operand in an addressing mode is decoded from its field and from the words that stand where
its own were stored; the words after them are left for the next operand. -/
theorem operandArg_address {env : Env} {k : OperandClass} {pos : Position} {pc : Lazy} {p : Int64}
    {o : Operand} {os : List Operand} {count : Nat} {ws : List UInt16} (hw : o.Written)
    (hk : o.kind = .address) (hs : ¬ StepsCounter o) (hpc : pc.intValue env = .ok p)
    (hws : storedWords env pos (extraWords pc count (o :: os)) = .ok ws) :
    ∃ arg xs ws', ws = xs ++ ws' ∧ DecodesTo env k o arg xs ∧
      storedWords env pos (extraWords pc (count + xs.length) os) = .ok ws' ∧
      ∀ rest taken,
        operandArg o.field ⟨p + Int64.ofNat (2 * count + 2), wordsToBytes ws ++ rest, taken⟩ =
          some (arg, ⟨p + Int64.ofNat (2 * (count + xs.length) + 2), wordsToBytes ws' ++ rest,
            xs.reverse ++ taken⟩) := by
  cases hw with
  | register r raw hr => cases hk
  | expression v raw => cases hk
  | plain m r raw hm hr =>
    refine ⟨.plain m r, [], ws, rfl, .plain m r raw, hws, fun rest taken => ?_⟩
    refine operandArg_plain (by omega) hr (hasExtraWord_plain hm fun hpcr => ?_) _
    exact ⟨fun h => hs ⟨rfl, rfl, hpcr, .inl h⟩, fun h => hs ⟨rfl, rfl, hpcr, .inr h⟩⟩
  | immediate deferred v raw =>
    obtain ⟨n, ws', hv, hws', rfl⟩ := Assembly.storedWords_cons_eq_ok hws
    cases deferred with
    | false =>
      exact ⟨_, [_], ws', rfl, .immediate v n raw hv, hws',
        operandArg_of_word (m := .autoIncrement) (r := .pc) (by decide) (by decide) (by decide)
          p count _ ws'⟩
    | true =>
      exact ⟨_, [_], ws', rfl, .absolute v n raw hv, hws',
        operandArg_of_word (m := .autoIncrementDeferred) (r := .pc) (by decide) (by decide)
          (by decide) p count _ ws'⟩
  | indexed deferred r v raw hr =>
    obtain ⟨n, ws', hv, hws', rfl⟩ := Assembly.storedWords_cons_eq_ok hws
    have hstep := operandArg_of_word (number_modeOf_index deferred) hr
      (hasExtraWord_index deferred r) p count (wrapAddress n) ws'
    by_cases hrp : r = .pc
    · subst hrp
      simp only [extraArg_index_pc] at hstep
      exact ⟨_, [_], ws', rfl, .beyond deferred v n _ raw hv, hws', hstep⟩
    · simp only [extraArg_index hrp] at hstep
      exact ⟨_, [_], ws', rfl, .indexed deferred r v n raw hrp hv, hws', hstep⟩
  | relative deferred v raw =>
    obtain ⟨d, ws', hd, hws', rfl⟩ := Assembly.storedWords_cons_eq_ok hws
    obtain ⟨n, hv, hd⟩ := bind_eq_ok.mp ((Lazy.intValue_sub env _ _).symm.trans hd)
    rw [Lazy.intValue_addInt, hpc, ok_bind, ok_bind] at hd
    cases hd
    have hstep := operandArg_of_word (number_modeOf_index deferred) (by decide)
      (hasExtraWord_index deferred .pc) p count
      (wrapAddress (n - (p + Int64.ofNat (2 * (count + 1) + 2)))) ws'
    simp only [extraArg_index_pc, wrapAddress_distance] at hstep
    exact ⟨_, [_], ws', rfl, .relative deferred v n _ raw hv, hws', hstep⟩

end Eleven.Disassembly

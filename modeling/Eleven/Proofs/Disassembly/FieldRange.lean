import Eleven.Proofs.Disassembly.Decoding

/-! Branches, SOB and small constants take the values that their field can hold, and no others. -/
namespace Eleven.Machine.Instruction

/-- The field `f` of an instruction at `p` stands for `v`. Branches and SOB count words from the end
of the instruction, SOB backward. All but the bounds is modulo `2 ^ 64`. -/
def Holds (i : Instruction) (p v : Int64) (f : Int) : Prop :=
  match i.kind with
  | .branch => (-128 ≤ f ∧ f ≤ 127) ∧ v = p + 2 + 2 * Int64.ofInt f
  | .sob => (0 ≤ f ∧ f ≤ 63) ∧ v = p + 2 - 2 * Int64.ofInt f
  | .immediate => (0 ≤ f ∧ f ≤ (i.max >>> 1).toInt) ∧ v = 2 * Int64.ofInt f
  | _ => False

/-- The first word with a field in it, behind the register `r` if it is a SOB. -/
def fieldWord (i : Instruction) (r : Register) (f : Int) : UInt16 :=
  match i.kind with
  | .branch => i.opcode ||| (UInt16.ofInt f &&& 0xFF)
  | .sob => i.opcode ||| (r.number <<< 6) ||| UInt16.ofInt f
  | _ => i.opcode ||| UInt16.ofInt f

/-- Whether a branch or SOB at `p` is an odd number of bytes away from `v`. -/
def oddDistance (i : Instruction) (p v : Int64) : Bool :=
  match i.kind with
  | .branch => (v - (p + 2)) % 2 != 0
  | .sob => (p + 2 - v) % 2 != 0
  | _ => false

theorem immediate_bounds {i : Instruction} (hi : i ∈ table) (hk : i.kind = .immediate) :
    i.shift = 1 ∧ (i.max >>> 1).toInt = i.max.toInt / 2 ∧ 0 ≤ i.max.toInt ∧ i.max.toInt < 512 := by
  obtain ⟨hshift, hmax, k, hk', hfield⟩ := immediate_layout i hi hk
  refine ⟨hshift, immediate_max_shiftRight i hi hk, ?_⟩
  have hbits : 2 ^ k ≤ 2 ^ 7 := by
    apply Nat.pow_le_pow_right (by decide)
    simp only [List.mem_cons, List.not_mem_nil, or_false] at hk'
    omega
  omega

end Eleven.Machine.Instruction

namespace Eleven.Disassembly

open Eleven.Machine (Instruction Register OperandClass wrapAddress unsignedWord)
open Eleven.Source (Operand)
open Eleven.Assembly (branchWord sobWord immediateWord extraWords storedWords)

/-- The result is a report of the category at the position. -/
def Refuses (pos : Position) (c : Category) (result : Except Failure Int64) : Prop :=
  ∃ q : Problem, result = .error (q.failure pos) ∧ q.category = c

section Distance

variable {f : Int} {pos : Position} {odd far : Problem} {low high : Int64}
  {result : Except Failure Int64}

/-- An even distance of as many words as there are between the bounds passes. -/
theorem distance_two_mul (hlow : low.toInt ≤ f) (hhigh : f ≤ high.toInt) (hlow' : -128 ≤ f)
    (hhigh' : f ≤ 127) :
    (if 2 * Int64.ofInt f % 2 ≠ 0 then .error (odd.failure pos)
      else if 2 * Int64.ofInt f / 2 < low ∨ 2 * Int64.ofInt f / 2 > high then
        .error (far.failure pos)
      else result) = result := by
  have hf : (Int64.ofInt f).toInt = f := Int64.toInt_ofInt_of_le (by omega) (by omega)
  have hfar : ¬ (Int64.ofInt f < low ∨ Int64.ofInt f > high) := by
    rw [not_or, Int64.not_lt, gt_iff_lt, Int64.not_lt, Int64.le_iff_toInt_le,
      Int64.le_iff_toInt_le, hf]
    exact ⟨hlow, hhigh⟩
  rw [Machine.two_mul_ofInt_mod_two (by omega) (by omega),
    Machine.two_mul_ofInt_div_two (by omega) (by omega), if_neg (by decide), if_neg hfar]

/-- A distance that no number of words between the bounds makes is refused. -/
theorem distance_cases (low high d : Int64) (hodd : odd.category = .misaligned)
    (hfar : far.category = .outOfRange) :
    (∃ f : Int, (low.toInt ≤ f ∧ f ≤ high.toInt) ∧ d = 2 * Int64.ofInt f) ∨
      Refuses pos (if d % 2 != 0 then .misaligned else .outOfRange)
        (if d % 2 ≠ 0 then .error (odd.failure pos)
          else if d / 2 < low ∨ d / 2 > high then .error (far.failure pos)
          else result) := by
  by_cases heven : d % 2 = 0
  · by_cases hout : d / 2 < low ∨ d / 2 > high
    · refine .inr ⟨far, by rw [if_neg (not_not_intro heven), if_pos hout], ?_⟩
      rw [hfar, heven]
      rfl
    · rw [not_or, Int64.not_lt, gt_iff_lt, Int64.not_lt, Int64.le_iff_toInt_le,
        Int64.le_iff_toInt_le] at hout
      refine .inl ⟨(d / 2).toInt, hout, ?_⟩
      rw [Int64.ofInt_toInt, Machine.two_mul_div_two heven]
  · refine .inr ⟨odd, by rw [if_pos heven], ?_⟩
    rw [hodd, if_pos (by simpa using heven)]

end Distance

section Classes

variable {i : Instruction} {pos : Position} {f : Int}

theorem branchWord_two_mul (hlow : -128 ≤ f) (hhigh : f ≤ 127) :
    branchWord i pos (2 * Int64.ofInt f) =
      .ok (unsignedWord (i.opcode ||| (UInt16.ofInt f &&& 0xFF))) := by
  rw [branchWord, distance_two_mul hlow hhigh hlow hhigh,
    Machine.two_mul_ofInt_div_two (by omega) (by omega), Machine.and_255_eq_unsignedWord,
    Machine.wrapAddress_ofInt, Machine.unsignedWord_or]

theorem branchWord_cases (i : Instruction) (pos : Position) (d : Int64) :
    (∃ f : Int, (-128 ≤ f ∧ f ≤ 127) ∧ d = 2 * Int64.ofInt f) ∨
      Refuses pos (if d % 2 != 0 then .misaligned else .outOfRange) (branchWord i pos d) := by
  have hodd : (Problem.branchUnaligned d).category = .misaligned := rfl
  have hfar : (Problem.branchTooFar (d / 2)).category = .outOfRange := rfl
  exact distance_cases (-128) 127 d hodd hfar

theorem sobWord_two_mul {r : Register} (hr : r.number.toNat < 8) (hlow : 0 ≤ f) (hhigh : f ≤ 63) :
    sobWord i (Int64.ofNat r.number.toNat) pos (2 * Int64.ofInt f) =
      .ok (unsignedWord (i.opcode ||| (r.number <<< 6) ||| UInt16.ofInt f)) := by
  rw [sobWord, distance_two_mul hlow hhigh (by omega) (by omega),
    Machine.two_mul_ofInt_div_two (by omega) (by omega), Machine.ofNat_shiftLeft_6 _ hr,
    UInt16.ofNat_toNat, Machine.ofInt_eq_unsignedWord hlow (by omega), Machine.unsignedWord_or,
    Machine.unsignedWord_or]

theorem sobWord_cases (i : Instruction) (r : Int64) (pos : Position) (d : Int64) :
    (∃ f : Int, (0 ≤ f ∧ f ≤ 63) ∧ d = 2 * Int64.ofInt f) ∨
      Refuses pos (if d % 2 != 0 then .misaligned else .outOfRange) (sobWord i r pos d) := by
  have hodd : (Problem.sobUnaligned d).category = .misaligned := rfl
  have hfar : (Problem.sobTooFar (d / 2)).category = .outOfRange := rfl
  exact distance_cases 0 63 d hodd hfar

theorem immediateWord_two_mul (hi : i ∈ Instruction.table) (hk : i.kind = .immediate)
    (hlow : 0 ≤ f) (hhigh : f ≤ (i.max >>> 1).toInt) :
    immediateWord i pos (2 * Int64.ofInt f) =
      .ok (unsignedWord (i.opcode ||| UInt16.ofInt f)) := by
  obtain ⟨hshift, hhalf, hpos, hsmall⟩ := Instruction.immediate_bounds hi hk
  have hn : (2 * Int64.ofInt f).toInt = 2 * f :=
    Machine.toInt_two_mul_ofInt (by omega) (by omega)
  have hnat : (2 * Int64.ofInt f).toNatClampNeg = 2 * f.toNat := by
    rw [Int64.toNatClampNeg, hn]
    omega
  have hbig : ¬ 2 * Int64.ofInt f > i.max := by
    rw [gt_iff_lt, Int64.not_lt, Int64.le_iff_toInt_le, hn]
    omega
  have hneg : ¬ 2 * Int64.ofInt f < 0 := by
    rw [Int64.not_lt, Int64.le_iff_toInt_le, hn]
    change 0 ≤ 2 * f
    omega
  have hfield : Int64.ofNat f.toNat = Int64.ofInt f := by
    rw [← Int64.ofInt_eq_ofNat, Int.toNat_of_nonneg hlow]
  have hunit : 1 <<< min i.shift 64 = 2 := by rw [hshift]; rfl
  rw [immediateWord, if_neg hbig, if_neg hneg, hunit, hnat, if_neg (by simp),
    Nat.mul_div_cancel_left _ (by decide), hfield,
    Machine.ofInt_eq_unsignedWord hlow (by omega), Machine.unsignedWord_or]

theorem immediateWord_cases (hi : i ∈ Instruction.table) (hk : i.kind = .immediate)
    (pos : Position) (n : Int64) :
    (∃ f : Int, (0 ≤ f ∧ f ≤ (i.max >>> 1).toInt) ∧ n = 2 * Int64.ofInt f) ∨
      Refuses pos .outOfRange (immediateWord i pos n) := by
  obtain ⟨hshift, hhalf, hpos, hsmall⟩ := Instruction.immediate_bounds hi hk
  have hunit : 1 <<< min i.shift 64 = 2 := by rw [hshift]; rfl
  unfold immediateWord
  rw [hunit]
  dsimp only
  split_ifs with hbig hneg hodd
  · exact .inr ⟨_, rfl, rfl⟩
  · exact .inr ⟨_, rfl, rfl⟩
  · exact .inr ⟨_, rfl, rfl⟩
  · rw [gt_iff_lt, Int64.not_lt, Int64.le_iff_toInt_le] at hbig
    rw [Int64.not_lt, Int64.le_iff_toInt_le] at hneg
    change 0 ≤ n.toInt at hneg
    rw [Int64.toNatClampNeg] at hodd
    refine .inl ⟨n.toInt / 2, by omega, ?_⟩
    rw [← Int64.toInt_inj, Machine.toInt_two_mul_ofInt (by omega) (by omega)]
    omega

end Classes

/-- Operands of which the last is the expression `x`. A SOB has the register `r` before it. -/
inductive FieldOperands (r : Register) (x : Lazy) : OperandClass → List Operand → Prop
  | branch {o : Operand} (ho : o.kind = .expression ∧ o.value = some x) :
    FieldOperands r x .branch [o]
  | sob {a o : Operand} (ha : a.kind = .register ∧ a.register = r)
    (ho : o.kind = .expression ∧ o.value = some x) : FieldOperands r x .sob [a, o]
  | immediate {o : Operand} (ho : o.kind = .expression ∧ o.value = some x) :
    FieldOperands r x .immediate [o]

/-- The operands that are decoded give the value back, and the register of a SOB. -/
def NamesValue (r : Register) (v : Int64) (args : List Arg) : OperandClass → Prop
  | .branch => ∃ a, args = [.place false a] ∧ unsignedWord a = v
  | .sob => ∃ a, args = [.register r, .place false a] ∧ unsignedWord a = v
  | _ => args = [.constant v]

/-- What the first word comes to, from what its place and its operand come to. -/
def fieldValue (i : Instruction) (r : Register) (pos : Position) (p v : Int64) :
    Except Failure Int64 :=
  match i.kind with
  | .branch => branchWord i pos (v - (p + 2))
  | .sob => sobWord i (Int64.ofNat r.number.toNat) pos (p + 2 - v)
  | _ => immediateWord i pos v

section Field

variable {env : Env} {i : Instruction} {r : Register} {x pc : Lazy} {p v : Int64} {f : Int}
  {os : List Operand}

theorem encode_fieldOperands (hos : FieldOperands r x i.kind os) (pos : Position)
    (hp : pc.intValue env = .ok p) (hx : x.intValue env = .ok v) :
    ∃ w, Assembly.encode i os pc pos = .ok [w] ∧ w.intValue env = fieldValue i r pos p v := by
  generalize hk : i.kind = k at hos
  cases hos with
  | branch ho =>
    refine ⟨(x.sub (pc.addInt 2)).mapInt (branchWord i pos), ?_, ?_⟩
    · simp [Assembly.encode, hk, OperandClass.operandCount, Assembly.firstWord,
        Assembly.requireExpression, extraWords, ho.1, ho.2]
    · simp [fieldValue, hk, hp, hx]
  | sob ha ho =>
    refine ⟨((pc.addInt 2).sub x).mapInt (sobWord i (Int64.ofNat r.number.toNat) pos), ?_, ?_⟩
    · simp [Assembly.encode, hk, OperandClass.operandCount, Assembly.firstWord,
        Assembly.requireExpression, Assembly.requireRegister, extraWords, ha.1, ha.2, ho.1, ho.2]
    · simp [fieldValue, hk, hp, hx]
  | immediate ho =>
    refine ⟨x.mapInt (immediateWord i pos), ?_, ?_⟩
    · simp [Assembly.encode, hk, OperandClass.operandCount, Assembly.firstWord,
        Assembly.requireExpression, extraWords, ho.1, ho.2]
    · simp [fieldValue, hk, hx]

theorem fieldValue_of_holds (hi : i ∈ Instruction.table) (hr : r.number.toNat < 8)
    (pos : Position) (h : i.Holds p v f) :
    fieldValue i r pos p v = .ok (unsignedWord (i.fieldWord r f)) := by
  unfold Instruction.Holds at h
  split at h
  · rename_i hk
    obtain ⟨⟨hlow, hhigh⟩, rfl⟩ := h
    have hd : p + 2 + 2 * Int64.ofInt f - (p + 2) = 2 * Int64.ofInt f := by grind
    simp only [fieldValue, Instruction.fieldWord, hk, hd]
    exact branchWord_two_mul hlow hhigh
  · rename_i hk
    obtain ⟨⟨hlow, hhigh⟩, rfl⟩ := h
    have hd : p + 2 - (p + 2 - 2 * Int64.ofInt f) = 2 * Int64.ofInt f := by grind
    simp only [fieldValue, Instruction.fieldWord, hk, hd]
    exact sobWord_two_mul hr hlow hhigh
  · rename_i hk
    obtain ⟨⟨hlow, hhigh⟩, rfl⟩ := h
    simp only [fieldValue, Instruction.fieldWord, hk]
    exact immediateWord_two_mul hi hk hlow hhigh
  · exact h.elim

theorem fieldValue_cases (hi : i ∈ Instruction.table) (hos : FieldOperands r x i.kind os)
    (pos : Position) (p v : Int64) :
    (∃ f, i.Holds p v f) ∨
      Refuses pos (if i.oddDistance p v then .misaligned else .outOfRange)
        (fieldValue i r pos p v) := by
  generalize hk : i.kind = k at hos
  cases hos with
  | branch _ =>
    simp only [Instruction.Holds, Instruction.oddDistance, fieldValue, hk]
    refine (branchWord_cases i pos (v - (p + 2))).imp_left ?_
    rintro ⟨f, hf, hd⟩
    exact ⟨f, hf, by rw [← hd]; grind⟩
  | sob _ _ =>
    simp only [Instruction.Holds, Instruction.oddDistance, fieldValue, hk]
    refine (sobWord_cases i _ pos (p + 2 - v)).imp_left ?_
    rintro ⟨f, hf, hd⟩
    exact ⟨f, hf, by rw [← hd]; grind⟩
  | immediate _ =>
    simp only [Instruction.Holds, Instruction.oddDistance, fieldValue, hk]
    exact immediateWord_cases hi hk pos v

/-- Each class can be written with a literal as its operand. -/
theorem exists_fieldOperands_int (hr : r.number.toNat < 8) (h : i.Holds p v f) :
    ∃ os, FieldOperands r (.int v) i.kind os ∧ (∀ o ∈ os, o.Written) ∧
      ∀ o ∈ os, ¬ StepsCounter o := by
  let o : Operand := ⟨.expression, .register, ⟨0⟩, some (.int v), false, ""⟩
  let a : Operand := ⟨.register, .register, r, none, false, ""⟩
  have ho : o.Written ∧ ¬ StepsCounter o := ⟨.expression _ _, by simp [StepsCounter, o]⟩
  have ha : a.Written ∧ ¬ StepsCounter a := ⟨.register r _ hr, by simp [StepsCounter, a]⟩
  unfold Instruction.Holds at h
  split at h
  · rename_i hk
    rw [hk]
    exact ⟨[o], .branch ⟨rfl, rfl⟩, by simp [ho], by simp [ho]⟩
  · rename_i hk
    rw [hk]
    exact ⟨[a, o], .sob ⟨rfl, rfl⟩ ⟨rfl, rfl⟩, by simp [ho, ha], by simp [ho, ha]⟩
  · rename_i hk
    rw [hk]
    exact ⟨[o], .immediate ⟨rfl, rfl⟩, by simp [ho], by simp [ho]⟩
  · exact h.elim

theorem DecodesTo.eq_of_expression {k : OperandClass} {o : Operand} {a : Arg} {ws : List UInt16}
    (h : DecodesTo env k o a ws) (ho : o.kind = .expression ∧ o.value = some (.int v)) :
    ((k = .branch ∨ k = .sob) ∧ a = .place false (wrapAddress v)) ∨
      (k = .immediate ∧ a = .constant v) := by
  cases h with
  | target v' n raw hk hv =>
    cases ho.2
    cases hv
    exact .inl ⟨hk, rfl⟩
  | constant v' n raw hk hv =>
    cases ho.2
    cases hv
    exact .inr ⟨hk, rfl⟩
  | _ => cases ho.1

theorem DecodesTo.eq_of_register {k : OperandClass} {o : Operand} {a : Arg} {ws : List UInt16}
    (h : DecodesTo env k o a ws) (ho : o.kind = .register ∧ o.register = r) : a = .register r := by
  cases h with
  | register r' raw => exact congrArg Arg.register ho.2
  | _ => cases ho.1

theorem namesValue_of_decodesTo {decoded : List (Arg × List UInt16)}
    (hos : FieldOperands r (.int v) i.kind os)
    (hdec : List.Forall₂ (fun o d => DecodesTo env i.kind o d.1 d.2) os decoded)
    (hv : 0 ≤ v.toInt) (hv' : v.toInt < 0o200000) :
    NamesValue r v (decoded.map Prod.fst) i.kind := by
  have hback := Machine.unsignedWord_wrapAddress hv hv'
  generalize i.kind = k at hos hdec
  cases hos with
  | branch ho =>
    obtain ⟨d, _, hd, hnil, rfl⟩ := List.forall₂_cons_left_iff.mp hdec
    cases hnil
    obtain ⟨-, hplace⟩ | ⟨hk, -⟩ := hd.eq_of_expression ho
    · exact ⟨_, congrArg (fun a => [a]) hplace, hback⟩
    · cases hk
  | sob ha ho =>
    obtain ⟨d, _, hd, hrest, rfl⟩ := List.forall₂_cons_left_iff.mp hdec
    obtain ⟨d', _, hd', hnil, rfl⟩ := List.forall₂_cons_left_iff.mp hrest
    cases hnil
    obtain ⟨-, hplace⟩ | ⟨hk, -⟩ := hd'.eq_of_expression ho
    · exact ⟨_, congrArg₂ (fun a b => [a, b]) (hd.eq_of_register ha) hplace, hback⟩
    · cases hk
  | immediate ho =>
    obtain ⟨d, _, hd, hnil, rfl⟩ := List.forall₂_cons_left_iff.mp hdec
    cases hnil
    obtain ⟨hk, -⟩ | ⟨-, hconstant⟩ := hd.eq_of_expression ho
    · rcases hk with hk | hk <;> cases hk
    · exact congrArg (fun a => [a]) hconstant

theorem decode_fieldWord (hi : i ∈ Instruction.table) (hr : r.number.toNat < 8)
    (h : i.Holds p v f) (hv : 0 ≤ v.toInt) (hv' : v.toInt < 0o200000) :
    ∃ j args, i.Same j ∧ NamesValue r v args i.kind ∧ ∀ rest,
      Line.decode p (i.fieldWord r f) rest = ⟨p, [i.fieldWord r f], .instruction j args⟩ := by
  let env : Env := fun _ => .error default
  obtain ⟨os, hos, hwritten, hsteps⟩ := exists_fieldOperands_int hr h
  have hp : (Lazy.int p).intValue env = .ok p := rfl
  obtain ⟨w, hw, hvalue⟩ := encode_fieldOperands hos .nowhere hp rfl
  have hstored : storedWords env .nowhere [w] = .ok [i.fieldWord r f] := by
    have hword := Machine.toInt_unsignedWord (i.fieldWord r f)
    have hlt := (i.fieldWord r f).toNat_lt
    rw [fieldValue_of_holds hi hr .nowhere h] at hvalue
    rw [Assembly.storedWords_cons hvalue (by omega) (by omega) rfl,
      Machine.wrapAddress_unsignedWord]
  obtain ⟨_, _, f', heq, hopcode, hbits, hrec⟩ :=
    recovers_encode hi hwritten hsteps hp hw hstored
  cases heq
  obtain ⟨j, hj, hij⟩ := Instruction.ofWord?_opcode_or hi hbits
  rw [← hopcode] at hj
  obtain ⟨decoded, hdec, -, hline⟩ := decode_of_recovers hj hij hrec
  exact ⟨j, decoded.map Prod.fst, hij, namesValue_of_decodesTo hos hdec hv hv', hline⟩

end Field

/-- The word of a branch, a SOB or a small constant comes to a number exactly if some field stands
for the value of the operand, which makes the word and is decoded as that value. Else it is refused:
as misaligned if the distance is odd, and as out of range in all other cases. -/
theorem encode_field_iff {env : Env} {i : Instruction} {r : Register} {x pc : Lazy} {p v : Int64}
    {os : List Operand} (hi : i ∈ Instruction.table) (hr : r.number.toNat < 8)
    (hos : FieldOperands r x i.kind os) (pos : Position) (hp : pc.intValue env = .ok p)
    (hx : x.intValue env = .ok v) :
    ∃ w, Assembly.encode i os pc pos = .ok [w] ∧
      ((∃ n, w.intValue env = .ok n) ↔ ∃ f, i.Holds p v f) ∧
      (∀ f, i.Holds p v f → w.intValue env = .ok (unsignedWord (i.fieldWord r f)) ∧
        (0 ≤ v.toInt → v.toInt < 0o200000 →
          ∃ j args, i.Same j ∧ NamesValue r v args i.kind ∧ ∀ rest,
            Line.decode p (i.fieldWord r f) rest =
              ⟨p, [i.fieldWord r f], .instruction j args⟩)) ∧
      ((∀ f, ¬ i.Holds p v f) →
        Refuses pos (if i.oddDistance p v then .misaligned else .outOfRange)
          (w.intValue env)) := by
  obtain ⟨w, hw, hvalue⟩ := encode_fieldOperands hos pos hp hx
  have hcases := fieldValue_cases hi hos pos p v
  rw [← hvalue] at hcases
  have hholds : ∀ f, i.Holds p v f → w.intValue env = .ok (unsignedWord (i.fieldWord r f)) := by
    intro f hf
    rw [hvalue, fieldValue_of_holds hi hr pos hf]
  refine ⟨w, hw, ⟨?_, ?_⟩, ?_, ?_⟩
  · rintro ⟨n, hn⟩
    rcases hcases with hf | ⟨q, hq, -⟩
    · exact hf
    · cases hn.symm.trans hq
  · rintro ⟨f, hf⟩
    exact ⟨_, hholds f hf⟩
  · intro f hf
    exact ⟨hholds f hf, decode_fieldWord hi hr hf⟩
  · intro hnone
    rcases hcases with ⟨f, hf⟩ | hrefuses
    · exact absurd hf (hnone f)
    · exact hrefuses

/-- `SOB R3, X` at `1000`, with `X` three words before the end of the instruction. -/
theorem encode_field_iff_sob :
    let env : Env := fun _ => .ok (.int 0o774)
    let i : Instruction := .entry "SOB" 0o077000 .sob
    let os : List Operand := [⟨.register, .register, ⟨3⟩, none, false, "R3"⟩,
      ⟨.expression, .register, ⟨0⟩, some (.symbol "X"), false, "X"⟩]
    i ∈ Instruction.table ∧ i.Holds 0o1000 0o774 3 ∧
      ∃ w, Assembly.encode i os (.int 0o1000) .nowhere = .ok [w] ∧
        w.intValue env = .ok 0o077303 ∧
        ∃ j args, i.Same j ∧ NamesValue ⟨3⟩ 0o774 args .sob ∧ ∀ rest,
          Line.decode 0o1000 0o077303 rest = ⟨0o1000, [0o077303], .instruction j args⟩ := by
  intro env i os
  have hi : i ∈ Instruction.table := List.mem_of_getElem? (i := 83) rfl
  have hf : i.Holds 0o1000 0o774 3 := ⟨by decide, by decide⟩
  have hos : FieldOperands ⟨3⟩ (.symbol "X") i.kind os := .sob ⟨rfl, rfl⟩ ⟨rfl, rfl⟩
  have hp : (Lazy.int 0o1000).intValue env = .ok 0o1000 := rfl
  have hx : (Lazy.symbol "X").intValue env = .ok 0o774 := rfl
  obtain ⟨w, hw, -, hfield, -⟩ := encode_field_iff hi (by decide) hos .nowhere hp hx
  obtain ⟨hvalue, hdecode⟩ := hfield 3 hf
  have hword : i.fieldWord ⟨3⟩ 3 = 0o077303 := by decide
  rw [hword] at hvalue hdecode
  exact ⟨hi, hf, w, hw, hvalue, hdecode (by decide) (by decide)⟩

end Eleven.Disassembly

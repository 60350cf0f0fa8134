import Eleven.Proofs.Assembly.Stores
import Eleven.Proofs.Disassembly.Printed

/-! Encoding undoes decoding: an instruction that was decoded and printed is encoded as the words it
was decoded from. -/
namespace Eleven.Disassembly

open Eleven.Assembly (encode extraWords firstWord storedWords wordValue)
open Eleven.Machine (Instruction OperandClass Register unsignedWord wrapAddress)
open Eleven.Source (Operand)

/-- Every label stands for its address. -/
def Provides (labels : Labels) (env : Env) : Prop :=
  ∀ a k, labels a = some k → env (labelName a k) = .ok (.int a)

theorem PlaceText.intValue {labels : Labels} {env : Env} (henv : Provides labels env) {a : UInt16}
    {s : String} {v : Lazy} (h : PlaceText labels a s v) :
    v.intValue env = .ok (unsignedWord a) := by
  cases h with
  | number => rfl
  | label k hk => rw [Lazy.intValue, Lazy.value_symbol, henv _ k hk, ok_bind, Datum.expectInt]

/-- The operands make the instruction at an address into these words. -/
def Rebuilds (labels : Labels) (i : Instruction) (p : Int64) (ws : List UInt16)
    (os : List Operand) : Prop :=
  ∀ pos, ∃ words, encode i os (.int p) pos = .ok words ∧ words.length = ws.length ∧
    ∀ env, Provides labels env → storedWords env pos words = .ok ws

section Words

variable {labels : Labels} {i : Instruction} {p after : Int64} {f w : UInt16} {xs ws : List UInt16}
  {o : Operand} {os : List Operand}

theorem FieldOperand.kind (h : FieldOperand labels after f xs o) : o.kind = .address := by
  cases h <;> rfl

theorem FieldOperand.field (h : FieldOperand labels after f xs o) : o.field = f := by
  cases h <;> rfl

theorem FieldOperand.length_extraWords (h : FieldOperand labels after f xs o) (count : Nat) :
    (extraWords (.int p) count (o :: os)).length =
      xs.length + (extraWords (.int p) (count + xs.length) os).length := by
  cases h with
  | bare => exact (Nat.zero_add _).symm
  | word => rw [extraWords, List.length_cons, List.length_singleton, Nat.add_comm]
  | place => rw [extraWords, List.length_cons, List.length_singleton, Nat.add_comm]

/-- The word of a place is its distance from the end of that word. -/
theorem distance_stored (hlow : 0 ≤ after.toInt) (hhigh : after.toInt ≤ 0o200000) {x : UInt16}
    {n : Int64} (hn : n = unsignedWord (wrapAddress (after + Machine.signedWord x)) - after) :
    -65536 ≤ n.toInt ∧ n.toInt < 65536 ∧ wrapAddress n = x := by
  have ha := Machine.toInt_unsignedWord (wrapAddress (after + Machine.signedWord x))
  have hlt := (wrapAddress (after + Machine.signedWord x)).toNat_lt
  have hint : n.toInt = (wrapAddress (after + Machine.signedWord x)).toNat - after.toInt := by
    rw [hn, Int64.toInt_sub, ha, Int.bmod_eq_of_le (by omega) (by omega)]
  refine ⟨by omega, by omega, ?_⟩
  rw [hn, Machine.wrapAddress_sub, Machine.wrapAddress_unsignedWord, Machine.wrapAddress_add,
    Machine.wrapAddress_signedWord, UInt16.add_comm, UInt16.add_sub_cancel]

theorem FieldOperand.storedWords (h : FieldOperand labels after f xs o) {count : Nat}
    (hafter : after = p + Int64.ofNat (2 * (count + 1) + 2)) (hlow : 0 ≤ p.toInt)
    (hhigh : p.toInt + (2 * (count + xs.length) + 2 : Nat) ≤ 0o200000) {env : Env}
    (henv : Provides labels env) {pos : Position}
    (hws : storedWords env pos (extraWords (.int p) (count + xs.length) os) = .ok ws) :
    storedWords env pos (extraWords (.int p) count (o :: os)) = .ok (xs ++ ws) := by
  cases h with
  | bare => exact hws
  | word m r x =>
    have hx := x.toNat_lt
    have hint := Machine.toInt_unsignedWord x
    have hword := Assembly.storedWords_cons (v := .int (unsignedWord x)) rfl (by omega) (by omega) hws
    rwa [Machine.wrapAddress_unsignedWord] at hword
  | place m x s v _ hv =>
    have hint : after.toInt = p.toInt + (2 * (count + 1) + 2 : Nat) := by
      rw [hafter]
      exact Machine.toInt_add_ofNat hlow (by simp at hhigh; omega)
    have hvalue : (v.sub ((Lazy.int p).addInt (Int64.ofNat (2 * (count + 1) + 2)))).intValue env =
        .ok (unsignedWord (wrapAddress (after + Machine.signedWord x)) - after) := by
      rw [Lazy.intValue_sub, hv.intValue henv, ok_bind, Lazy.intValue_addInt, Lazy.intValue_int,
        ok_bind, ok_bind, ← hafter]
    have hle : after.toInt ≤ 0o200000 := by
      rw [hint]
      exact hhigh
    obtain ⟨hmin, hmax, hwrap⟩ := distance_stored (x := x) (by omega) hle rfl
    have hword := Assembly.storedWords_cons hvalue hmin hmax hws
    rwa [hwrap] at hword

/-- The first word is followed by the words of the operands. -/
theorem rebuilds_intro (hcount : os.length = i.kind.operandCount)
    (hfirst : ∀ pos, ∃ first, firstWord i os (.int p) pos = .ok first ∧
      ∀ env, Provides labels env → first.intValue env = .ok (unsignedWord w))
    (hlength : (extraWords (.int p) 0 os).length = xs.length)
    (hextra : ∀ pos env, Provides labels env →
      storedWords env pos (extraWords (.int p) 0 os) = .ok xs) :
    Rebuilds labels i p (w :: xs) os := by
  intro pos
  obtain ⟨first, hfirst, hvalue⟩ := hfirst pos
  refine ⟨first :: extraWords (.int p) 0 os, ?_, congrArg Nat.succ hlength, fun env henv => ?_⟩
  · rw [encode, if_neg (not_not_intro hcount), hfirst, ok_bind]
  · have hw := w.toNat_lt
    have hint := Machine.toInt_unsignedWord w
    have hword := Assembly.storedWords_cons (hvalue env henv) (by omega) (by omega)
      (hextra pos env henv)
    rwa [Machine.wrapAddress_unsignedWord] at hword

end Words

/-- A register or an expression takes no word. -/
theorem extraWords_of_kind {pc : Lazy} {count : Nat} {o : Operand} {os : List Operand}
    (ho : o.kind ≠ .address) : extraWords pc count (o :: os) = extraWords pc count os := by
  rw [extraWords]
  split
  · rename_i hk _
    exact absurd hk ho
  · rfl

theorem extraWords_before {pc : Lazy} {count : Nat} {a b : Operand} (ha : a.kind ≠ .address) :
    extraWords pc count [b, a] = extraWords pc count [b] := by
  have htail : ∀ n, extraWords pc n [a] = extraWords pc n [] := fun _ => extraWords_of_kind ha
  rw [extraWords, htail, htail]
  rfl

theorem requireExpression_of_kind {i : Instruction} {o : Operand} {v : Lazy}
    (ho : o.kind = .expression) (hv : o.value = some v) (pos : Position) :
    Assembly.requireExpression i pos o = .ok v := by
  rw [Assembly.requireExpression, ho, hv]

theorem firstWord_immediate {i : Instruction} {o : Operand} {pc v : Lazy}
    (hk : i.kind = .immediate) (ho : o.kind = .expression) (hv : o.value = some v)
    (pos : Position) :
    firstWord i [o] pc pos = .ok (v.mapInt (Assembly.immediateWord i pos)) := by
  unfold firstWord
  rw [hk]
  simp only [requireExpression_of_kind ho hv, ok_bind]

theorem immediateWord_double {i : Instruction} (pos : Position) (hshift : i.shift = 1) {x : UInt16}
    (hx : 2 * (x.toNat : Int) ≤ i.max.toInt) :
    Assembly.immediateWord i pos (Int64.ofNat (x.toNat <<< 1)) =
      .ok (unsignedWord i.opcode ||| unsignedWord x) := by
  have hlt := x.toNat_lt
  have hdouble : x.toNat <<< 1 = 2 * x.toNat := by
    rw [Nat.shiftLeft_eq]
    omega
  have hint : (Int64.ofNat (x.toNat <<< 1)).toInt = 2 * x.toNat := by
    rw [Int64.toInt_ofNat_of_lt (by omega)]
    omega
  have hclamp : (Int64.ofNat (x.toNat <<< 1)).toNatClampNeg = 2 * x.toNat := by
    rw [Int64.toNatClampNeg, hint]
    omega
  have hbig : ¬ Int64.ofNat (x.toNat <<< 1) > i.max := by
    rw [gt_iff_lt, Int64.lt_iff_toInt_lt, hint]
    omega
  have hneg : ¬ Int64.ofNat (x.toNat <<< 1) < 0 := by
    rw [Int64.lt_iff_toInt_lt, hint]
    change ¬ 2 * (x.toNat : Int) < 0
    omega
  have hunit : 1 <<< min i.shift 64 = 2 := by
    rw [hshift]
    rfl
  dsimp only [Assembly.immediateWord]
  rw [if_neg hbig, if_neg hneg, hclamp, hunit, if_neg (by omega),
    Nat.mul_div_cancel_left _ (by decide)]
  rfl

theorem counter_zero (p : Int64) : p + 2 + 2 = p + Int64.ofNat (2 * (0 + 1) + 2) :=
  Int64.add_assoc p 2 2

theorem counter_after (p : Int64) (k : Nat) :
    p + 2 + Int64.ofNat (2 * k) + 2 = p + Int64.ofNat (2 * (0 + k + 1) + 2) := by
  have hsum : 2 * (0 + k + 1) + 2 = 2 + 2 * k + 2 := by omega
  rw [hsum, Int64.ofNat_add, Int64.ofNat_add, Int64.add_assoc p, Int64.add_assoc p]
  rfl

section Classes

variable {labels : Labels} {i : Instruction} {p : Int64} {w : UInt16} {xs ys : List UInt16}
  {a b o : Operand} (hw : w &&& i.mask = i.opcode) (hlow : 0 ≤ p.toInt)

include hw

theorem rebuilds_zero (hk : i.kind = .zero) : Rebuilds labels i p [w] [] := by
  have hword : i.opcode = w := by
    have h := Instruction.opcode_or_operandBits hw
    rwa [Instruction.operandBits, hk, UInt16.and_zero, UInt16.or_zero] at h
  refine rebuilds_intro (by rw [hk]; rfl) (fun pos => ⟨wordValue i.opcode, ?_, fun env _ => ?_⟩) rfl
    fun _ _ _ => rfl
  · unfold firstWord
    rw [hk]
  · rw [hword]
    rfl

theorem rebuilds_rts (hk : i.kind = .rts) (ho : o.kind = .register)
    (hr : o.register = ⟨w &&& 7⟩) : Rebuilds labels i p [w] [o] := by
  have hword := Instruction.opcode_or_operandBits hw
  rw [Instruction.operandBits, hk] at hword
  have hextra : ∀ pc, extraWords pc 0 [o] = [] := fun _ => extraWords_of_kind (by rw [ho]; decide)
  refine rebuilds_intro (by rw [hk]; rfl)
    (fun pos => ⟨wordValue (i.opcode ||| o.register.number), ?_, fun env _ => ?_⟩)
    (by rw [hextra]; rfl) fun _ _ _ => by rw [hextra]; rfl
  · unfold firstWord
    rw [hk]
    simp only [Assembly.requireRegister, ho, if_true, ok_bind]
  · rw [hr, hword]
    rfl

/-- A small constant, of which the field holds all but the lowest bit. -/
theorem rebuilds_immediate (hi : i ∈ Instruction.table) (hk : i.kind = .immediate)
    (ho : o.kind = .expression) (hv : o.value =
      some (.int (Int64.ofNat ((w &&& i.immediateField).toNat <<< i.shift)))) :
    Rebuilds labels i p [w] [o] := by
  obtain ⟨hshift, hmax, -⟩ := Instruction.immediate_layout i hi hk
  have hword := Instruction.opcode_or_operandBits hw
  rw [Instruction.operandBits, hk] at hword
  have hextra : ∀ pc, extraWords pc 0 [o] = [] := fun _ => extraWords_of_kind (by rw [ho]; decide)
  refine rebuilds_intro (by rw [hk]; rfl)
    (fun pos => ⟨_, firstWord_immediate hk ho hv pos, fun env _ => ?_⟩)
    (by rw [hextra]; rfl) fun _ _ _ => by rw [hextra]; rfl
  have hsmall : (w &&& i.immediateField).toNat ≤ i.immediateField.toNat := by
    rw [UInt16.toNat_and]
    exact Nat.and_le_right
  rw [Lazy.intValue_mapInt, Lazy.intValue_int, ok_bind, hshift,
    immediateWord_double pos hshift (by omega), Machine.unsignedWord_or, hword]

include hlow

theorem rebuilds_one (hk : i.kind = .one)
    (ho : FieldOperand labels (p + 2 + 2) (w &&& 0o77) xs o)
    (hhigh : p.toInt + (2 * xs.length + 2 : Nat) ≤ 0o200000) :
    Rebuilds labels i p (w :: xs) [o] := by
  have hword := Instruction.opcode_or_operandBits hw
  rw [Instruction.operandBits, hk] at hword
  refine rebuilds_intro (by rw [hk]; rfl)
    (fun pos => ⟨wordValue (i.opcode ||| o.field), ?_, fun env _ => ?_⟩) (ho.length_extraWords 0)
    fun pos env henv => ?_
  · unfold firstWord
    rw [hk]
    simp only [Assembly.requireAddress, ho.kind, if_true, ok_bind]
  · rw [ho.field, hword]
    rfl
  · have h : storedWords env pos (extraWords (.int p) 0 [o]) = .ok (xs ++ []) :=
      ho.storedWords (counter_zero p) hlow (by rwa [Nat.zero_add]) henv rfl
    rwa [List.append_nil] at h

theorem rebuilds_two (hk : i.kind = .two)
    (ha : FieldOperand labels (p + 2 + 2) ((w >>> 6) &&& 0o77) xs a)
    (hb : FieldOperand labels (p + 2 + Int64.ofNat (2 * xs.length) + 2) (w &&& 0o77) ys b)
    (hhigh : p.toInt + (2 * (xs ++ ys).length + 2 : Nat) ≤ 0o200000) :
    Rebuilds labels i p (w :: (xs ++ ys)) [a, b] := by
  have hword := Instruction.opcode_or_operandBits hw
  rw [Instruction.operandBits, hk] at hword
  have hlength : (extraWords (.int p) 0 [a, b]).length = (xs ++ ys).length := by
    rw [ha.length_extraWords, hb.length_extraWords, List.length_append]
    rfl
  rw [List.length_append] at hhigh
  refine rebuilds_intro (by rw [hk]; rfl)
    (fun pos => ⟨wordValue (i.opcode ||| (a.field <<< 6) ||| b.field), ?_, fun env _ => ?_⟩)
    hlength fun pos env henv => ?_
  · unfold firstWord
    rw [hk]
    simp only [Assembly.requireAddress, ha.kind, hb.kind, if_true, ok_bind]
  · rw [ha.field, hb.field, UInt16.or_assoc,
      Machine.pair_of_low (k := 6) (m := 0o7777) rfl rfl (by decide),
      hword]
    rfl
  · have hys : storedWords env pos (extraWords (.int p) (0 + xs.length) [b]) = .ok (ys ++ []) :=
      hb.storedWords (counter_after p _) hlow (by rwa [Nat.zero_add]) henv rfl
    have h := ha.storedWords (counter_zero p) hlow (by omega) henv hys
    rwa [List.append_nil] at h

/-- A register above an operand, in whichever order they are written. -/
theorem rebuilds_pair (hbits : i.operandBits = 0o777) {os : List Operand}
    (hcount : os.length = i.kind.operandCount)
    (hfirst : ∀ pos, firstWord i os (.int p) pos =
      .ok (wordValue (i.opcode ||| (a.register.number <<< 6) ||| b.field)))
    (hextra : extraWords (.int p) 0 os = extraWords (.int p) 0 [b])
    (ha : a.register = ⟨(w >>> 6) &&& 7⟩)
    (hb : FieldOperand labels (p + 2 + 2) (w &&& 0o77) xs b)
    (hhigh : p.toInt + (2 * xs.length + 2 : Nat) ≤ 0o200000) :
    Rebuilds labels i p (w :: xs) os := by
  have hword := Instruction.opcode_or_operandBits hw
  rw [hbits] at hword
  refine rebuilds_intro hcount (fun pos => ⟨_, hfirst pos, fun env _ => ?_⟩)
    (hextra ▸ hb.length_extraWords 0) fun pos env henv => ?_
  · rw [ha, hb.field, UInt16.or_assoc,
      Machine.pair_of_low (k := 3) (m := 0o777) rfl rfl (by decide), hword]
    rfl
  · have h : storedWords env pos (extraWords (.int p) 0 [b]) = .ok (xs ++ []) :=
      hb.storedWords (counter_zero p) hlow (by rwa [Nat.zero_add]) henv rfl
    rwa [List.append_nil, ← hextra] at h

theorem rebuilds_register (hk : i.kind = .register) (ha : a.kind = .register)
    (hr : a.register = ⟨(w >>> 6) &&& 7⟩) (hb : FieldOperand labels (p + 2 + 2) (w &&& 0o77) xs b)
    (hhigh : p.toInt + (2 * xs.length + 2 : Nat) ≤ 0o200000) :
    Rebuilds labels i p (w :: xs) [a, b] := by
  refine rebuilds_pair hw hlow (by rw [Instruction.operandBits, hk]) (by rw [hk]; rfl)
    (fun pos => ?_) (extraWords_of_kind (by rw [ha]; decide)) hr hb hhigh
  unfold firstWord
  rw [hk]
  simp only [Assembly.requireRegister, Assembly.requireAddress, ha, hb.kind, if_true, ok_bind]

theorem rebuilds_registerSource (hk : i.kind = .registerSource) (ha : a.kind = .register)
    (hr : a.register = ⟨(w >>> 6) &&& 7⟩) (hb : FieldOperand labels (p + 2 + 2) (w &&& 0o77) xs b)
    (hhigh : p.toInt + (2 * xs.length + 2 : Nat) ≤ 0o200000) :
    Rebuilds labels i p (w :: xs) [b, a] := by
  refine rebuilds_pair hw hlow (by rw [Instruction.operandBits, hk]) (by rw [hk]; rfl)
    (fun pos => ?_) (extraWords_before (by rw [ha]; decide)) hr hb hhigh
  unfold firstWord
  rw [hk]
  simp only [Assembly.requireRegister, Assembly.requireAddress, ha, hb.kind, if_true, ok_bind]

end Classes

/-- Where a branch leads, if addresses did not wrap. -/
def branchTarget? (k : OperandClass) (p : Int64) (w : UInt16) : Option Int :=
  match k with
  | .branch => some (p.toInt + 2 + 2 * w.toUInt8.toInt8.toInt)
  | .sob => some (p.toInt + 2 - 2 * (w &&& 0o77).toNat)
  | _ => none

/-- The instruction does not lead out of the address space. -/
def StaysInside (k : OperandClass) (p : Int64) (w : UInt16) : Prop :=
  ∀ t ∈ branchTarget? k p w, 0 ≤ t ∧ t < Machine.addressSpace

theorem staysInside_branch {p : Int64} {w : UInt16} : StaysInside .branch p w ↔
    0 ≤ p.toInt + 2 + 2 * w.toUInt8.toInt8.toInt ∧
      p.toInt + 2 + 2 * w.toUInt8.toInt8.toInt < 65536 := by
  simp [StaysInside, branchTarget?, Machine.addressSpace]

theorem staysInside_sob {p : Int64} {w : UInt16} : StaysInside .sob p w ↔
    0 ≤ p.toInt + 2 - 2 * (w &&& 0o77).toNat ∧ p.toInt + 2 - 2 * (w &&& 0o77).toNat < 65536 := by
  simp only [StaysInside, branchTarget?, Machine.addressSpace, Option.mem_def, Option.some.injEq,
    forall_eq']
  rfl

/-- A report of a value out of range, with no other cause. -/
def IsRangeReport (e : Failure) : Prop :=
  ∃ d : Diagnostic, e = .report d ∧ d.category = some .outOfRange

/-- The operands make an instruction at an address that reaches too far. -/
def Overreaches (labels : Labels) (i : Instruction) (p : Int64) (os : List Operand) : Prop :=
  ∀ pos, ∃ first, encode i os (.int p) pos = .ok [first] ∧
    ∀ env, Provides labels env → ∃ e, first.intValue env = .error e ∧ IsRangeReport e

/-- What printed operands come to: the words they were decoded from, unless these lead out of the
address space. -/
structure Reassembles (labels : Labels) (i : Instruction) (p : Int64) (w : UInt16)
    (xs : List UInt16) (os : List Operand) : Prop where
  inside : StaysInside i.kind p w → Rebuilds labels i p (w :: xs) os
  outside : ¬ StaysInside i.kind p w → xs = [] ∧ Overreaches labels i p os

section Distances

variable {i : Instruction} {d : Int64} {m : Int} (hd : d.toInt = 2 * m) (pos : Position)

include hd

theorem halves : d % 2 = 0 ∧ (d / 2).toInt = m := by
  constructor
  · rw [← Int64.toInt_inj, Int64.toInt_mod, hd]
    exact Int.mul_tmod_right 2 m
  · rw [Int64.toInt_div_of_ne_right d 2 (by decide), hd]
    exact Int.mul_tdiv_cancel_left m (by decide)

theorem branchWord_near (hlow : -128 ≤ m) (hhigh : m ≤ 127) :
    Assembly.branchWord i pos d = .ok (unsignedWord i.opcode ||| (d / 2 &&& 0xFF)) := by
  obtain ⟨heven, hhalf⟩ := halves hd
  have hnear : ¬ (d / 2 < -128 ∨ d / 2 > 127) := by
    rw [gt_iff_lt, Int64.lt_iff_toInt_lt, Int64.lt_iff_toInt_lt, hhalf]
    change ¬ (m < -128 ∨ 127 < m)
    omega
  rw [Assembly.branchWord, if_neg (not_not_intro heven), if_neg hnear]

theorem branchWord_far (hfar : m < -128 ∨ 127 < m) :
    Assembly.branchWord i pos d = .error ((Problem.branchTooFar (d / 2)).failure pos) := by
  obtain ⟨heven, hhalf⟩ := halves hd
  have hlong : d / 2 < -128 ∨ d / 2 > 127 := by
    rw [gt_iff_lt, Int64.lt_iff_toInt_lt, Int64.lt_iff_toInt_lt, hhalf]
    exact hfar
  rw [Assembly.branchWord, if_neg (not_not_intro heven), if_pos hlong]

theorem sobWord_near (r : Int64) (hlow : 0 ≤ m) (hhigh : m ≤ 63) :
    Assembly.sobWord i r pos d = .ok (unsignedWord i.opcode ||| (r <<< 6) ||| d / 2) := by
  obtain ⟨heven, hhalf⟩ := halves hd
  have hnear : ¬ (d / 2 < 0 ∨ d / 2 > 63) := by
    rw [gt_iff_lt, Int64.lt_iff_toInt_lt, Int64.lt_iff_toInt_lt, hhalf]
    change ¬ (m < 0 ∨ 63 < m)
    omega
  rw [Assembly.sobWord, if_neg (not_not_intro heven), if_neg hnear]

theorem sobWord_far (r : Int64) (hfar : m < 0 ∨ 63 < m) :
    Assembly.sobWord i r pos d = .error ((Problem.sobTooFar (d / 2)).failure pos) := by
  obtain ⟨heven, hhalf⟩ := halves hd
  have hlong : d / 2 < 0 ∨ d / 2 > 63 := by
    rw [gt_iff_lt, Int64.lt_iff_toInt_lt, Int64.lt_iff_toInt_lt, hhalf]
    exact hfar
  rw [Assembly.sobWord, if_neg (not_not_intro heven), if_pos hlong]

end Distances

section Branches

variable {labels : Labels} {i : Instruction} {p : Int64} {w : UInt16} {a o : Operand} {s : String}
  {v : Lazy} (hw : w &&& i.mask = i.opcode) (hlow : 0 ≤ p.toInt) (hhigh : p.toInt + 2 ≤ 0o200000)

/-- An instruction whose first word is all there is. -/
theorem encode_single {os : List Operand} {first : Lazy} {pos : Position}
    (hcount : os.length = i.kind.operandCount) (hfirst : firstWord i os (.int p) pos = .ok first)
    (hextra : extraWords (.int p) 0 os = []) : encode i os (.int p) pos = .ok [first] := by
  rw [encode, if_neg (not_not_intro hcount), hfirst, ok_bind, hextra]

theorem firstWord_branch (hk : i.kind = .branch) (ho : o.kind = .expression) (hv : o.value = some v)
    (pos : Position) : firstWord i [o] (.int p) pos =
      .ok ((v.sub ((Lazy.int p).addInt 2)).mapInt (Assembly.branchWord i pos)) := by
  unfold firstWord
  rw [hk]
  simp only [requireExpression_of_kind ho hv, ok_bind]

theorem firstWord_sob (hk : i.kind = .sob) (ha : a.kind = .register) (ho : o.kind = .expression)
    (hv : o.value = some v) (pos : Position) : firstWord i [a, o] (.int p) pos =
      .ok ((((Lazy.int p).addInt 2).sub v).mapInt
        (Assembly.sobWord i (Int64.ofNat a.register.number.toNat) pos)) := by
  unfold firstWord
  rw [hk]
  simp only [Assembly.requireRegister, ha, if_true, requireExpression_of_kind ho hv, ok_bind]

theorem intValue_sob
    (hplace : PlaceText labels (wrapAddress (p + 2 - 2 * unsignedWord (w &&& 0o77))) s v) {env : Env}
    (henv : Provides labels env) (r : Int64) (pos : Position) :
    ((((Lazy.int p).addInt 2).sub v).mapInt (Assembly.sobWord i r pos)).intValue env =
      Assembly.sobWord i r pos
        (p + 2 - unsignedWord (wrapAddress (p + 2 - 2 * unsignedWord (w &&& 0o77)))) := by
  rw [Lazy.intValue_mapInt, Lazy.intValue_sub, Lazy.intValue_addInt, Lazy.intValue_int, ok_bind,
    ok_bind, hplace.intValue henv, ok_bind, ok_bind]

theorem toInt_two_mul {q : Int64} (hq : -128 ≤ q.toInt) (hq' : q.toInt ≤ 127) :
    (2 * q).toInt = 2 * q.toInt := by
  rw [Int64.toInt_mul]
  exact Int.bmod_eq_of_le (by change _ ≤ 2 * q.toInt; omega) (by change 2 * q.toInt < _; omega)

theorem intValue_branch (hplace : PlaceText labels
      (wrapAddress (p + 2 + 2 * w.toUInt8.toInt8.toInt64)) s v) {env : Env}
    (henv : Provides labels env) (pos : Position) :
    ((v.sub ((Lazy.int p).addInt 2)).mapInt (Assembly.branchWord i pos)).intValue env =
      Assembly.branchWord i pos
        (unsignedWord (wrapAddress (p + 2 + 2 * w.toUInt8.toInt8.toInt64)) - (p + 2)) := by
  rw [Lazy.intValue_mapInt, Lazy.intValue_sub, hplace.intValue henv, ok_bind, Lazy.intValue_addInt,
    Lazy.intValue_int, ok_bind, ok_bind, ok_bind]

include hlow hhigh

theorem toInt_counter : (p + 2).toInt = p.toInt + 2 := Machine.toInt_add_ofNat (n := 2) hlow (by omega)

/-- The distance that a branch to a printed target comes to. -/
theorem toInt_branchDistance :
    (unsignedWord (wrapAddress (p + 2 + 2 * w.toUInt8.toInt8.toInt64)) - (p + 2)).toInt =
      (p.toInt + 2 + 2 * w.toUInt8.toInt8.toInt) % 65536 - (p.toInt + 2) := by
  have hq := w.toUInt8.toInt8.le_toInt
  have hq' := w.toUInt8.toInt8.toInt_lt
  have htwo : (2 * w.toUInt8.toInt8.toInt64).toInt = 2 * w.toUInt8.toInt8.toInt := by
    rw [toInt_two_mul] <;> rw [Int8.toInt_toInt64] <;> omega
  have hcounter := toInt_counter hlow hhigh
  have htarget : (p + 2 + 2 * w.toUInt8.toInt8.toInt64).toInt =
      p.toInt + 2 + 2 * w.toUInt8.toInt8.toInt := by
    rw [Int64.toInt_add, hcounter, htwo, Int.bmod_eq_of_le (by omega) (by omega)]
  rw [Int64.toInt_sub, Machine.toInt_unsignedWord_wrapAddress, hcounter, htarget,
    Int.bmod_eq_of_le (by omega) (by omega)]

include hw

theorem reassembles_branch (hk : i.kind = .branch) (ho : o.kind = .expression)
    (hv : o.value = some v)
    (hplace : PlaceText labels (wrapAddress (p + 2 + 2 * w.toUInt8.toInt8.toInt64)) s v) :
    Reassembles labels i p w [] [o] := by
  have hq := w.toUInt8.toInt8.le_toInt
  have hq' := w.toUInt8.toInt8.toInt_lt
  have hint := toInt_branchDistance (w := w) hlow hhigh
  have hextra : ∀ pc, extraWords pc 0 [o] = [] := fun _ => extraWords_of_kind (by rw [ho]; decide)
  have hcount : [o].length = i.kind.operandCount := by
    rw [hk]
    rfl
  have hstays := staysInside_branch (p := p) (w := w)
  rw [← hk] at hstays
  constructor
  · intro hinside
    obtain ⟨hmin, hmax⟩ := hstays.mp hinside
    rw [Int.emod_eq_of_lt hmin hmax] at hint
    refine rebuilds_intro hcount (fun pos => ⟨_, firstWord_branch hk ho hv pos, fun env henv => ?_⟩)
      (by rw [hextra]; rfl) fun _ _ _ => by rw [hextra]; rfl
    have hd : (unsignedWord (wrapAddress (p + 2 + 2 * w.toUInt8.toInt8.toInt64)) - (p + 2)).toInt =
        2 * w.toUInt8.toInt8.toInt := by omega
    have hhalf := (halves hd).2
    rw [← Int8.toInt_toInt64, Int64.toInt_inj] at hhalf
    have hword := Instruction.opcode_or_operandBits hw
    rw [Instruction.operandBits, hk] at hword
    have hbyte : Int64.ofNat w.toUInt8.toNat = unsignedWord (w &&& 0o377) := by
      rw [unsignedWord, Machine.toNat_and_of_low (k := 8) rfl, UInt16.toNat_toUInt8]
    rw [intValue_branch hplace henv, branchWord_near hd pos (by omega) (by omega), hhalf,
      Machine.toInt64_and_255, hbyte, Machine.unsignedWord_or, hword]
  · intro houtside
    refine ⟨rfl, fun pos => ⟨_, encode_single hcount (firstWord_branch hk ho hv pos) (hextra _),
      fun env henv => ?_⟩⟩
    obtain ⟨m, hd, hfar⟩ : ∃ m, (unsignedWord (wrapAddress
        (p + 2 + 2 * w.toUInt8.toInt8.toInt64)) - (p + 2)).toInt = 2 * m ∧ (m < -128 ∨ 127 < m) := by
      rcases Int.lt_or_le (p.toInt + 2 + 2 * w.toUInt8.toInt8.toInt) 0 with hneg | hpos
      · exact ⟨w.toUInt8.toInt8.toInt + 32768, by omega, .inr (by omega)⟩
      · have hbig : 65536 ≤ p.toInt + 2 + 2 * w.toUInt8.toInt8.toInt := by
          by_contra hsmall
          exact houtside (hstays.mpr ⟨hpos, by omega⟩)
        exact ⟨w.toUInt8.toInt8.toInt - 32768, by omega, .inl (by omega)⟩
    rw [intValue_branch hplace henv, branchWord_far hd pos hfar]
    exact ⟨_, rfl, _, rfl, rfl⟩

omit hw in
/-- The distance that a loop to a printed target comes to. -/
theorem toInt_sobDistance :
    (p + 2 - unsignedWord (wrapAddress (p + 2 - 2 * unsignedWord (w &&& 0o77)))).toInt =
      p.toInt + 2 - (p.toInt + 2 - 2 * (w &&& 0o77).toNat) % 65536 := by
  have hk : (w &&& 0o77).toNat < 64 := by
    rw [Machine.toNat_and_of_low (k := 6) rfl]
    exact Nat.mod_lt _ (by decide)
  have hword := Machine.toInt_unsignedWord (w &&& 0o77)
  have htwo := toInt_two_mul (q := unsignedWord (w &&& 0o77)) (by omega) (by omega)
  have hcounter := toInt_counter hlow hhigh
  have htarget : (p + 2 - 2 * unsignedWord (w &&& 0o77)).toInt =
      p.toInt + 2 - 2 * (w &&& 0o77).toNat := by
    rw [Int64.toInt_sub, hcounter, htwo, hword, Int.bmod_eq_of_le (by omega) (by omega)]
  rw [Int64.toInt_sub, Machine.toInt_unsignedWord_wrapAddress, hcounter, htarget,
    Int.bmod_eq_of_le (by omega) (by omega)]

theorem reassembles_sob (hk : i.kind = .sob) (ha : a.kind = .register)
    (hr : a.register = ⟨(w >>> 6) &&& 7⟩) (ho : o.kind = .expression) (hv : o.value = some v)
    (hplace : PlaceText labels (wrapAddress (p + 2 - 2 * unsignedWord (w &&& 0o77))) s v) :
    Reassembles labels i p w [] [a, o] := by
  have hlt : (w &&& 0o77).toNat < 64 := by
    rw [Machine.toNat_and_of_low (k := 6) rfl]
    exact Nat.mod_lt _ (by decide)
  have hint := toInt_sobDistance (w := w) hlow hhigh
  have hextra : ∀ pc, extraWords pc 0 [a, o] = [] := by
    intro pc
    rw [extraWords_of_kind (by rw [ha]; decide), extraWords_of_kind (by rw [ho]; decide)]
    rfl
  have hcount : [a, o].length = i.kind.operandCount := by
    rw [hk]
    rfl
  have hstays := staysInside_sob (p := p) (w := w)
  rw [← hk] at hstays
  constructor
  · intro hinside
    obtain ⟨hmin, hmax⟩ := hstays.mp hinside
    rw [Int.emod_eq_of_lt hmin hmax] at hint
    refine rebuilds_intro hcount (fun pos => ⟨_, firstWord_sob hk ha ho hv pos, fun env henv => ?_⟩)
      (by rw [hextra]; rfl) fun _ _ _ => by rw [hextra]; rfl
    have hd : (p + 2 - unsignedWord (wrapAddress (p + 2 - 2 * unsignedWord (w &&& 0o77)))).toInt =
        2 * (w &&& 0o77).toNat := by omega
    have hhalf := (halves hd).2
    rw [← Machine.toInt_unsignedWord, Int64.toInt_inj] at hhalf
    have hword := Instruction.opcode_or_operandBits hw
    rw [Instruction.operandBits, hk] at hword
    have hreg : ((w >>> 6) &&& 7).toNat < 8 := by
      rw [Machine.toNat_and_of_low (k := 3) rfl]
      exact Nat.mod_lt _ (by decide)
    rw [intValue_sob hplace henv, sobWord_near hd pos _ (by omega) (by omega), hhalf, hr,
      Machine.ofNat_shiftLeft_6 _ hreg, UInt16.ofNat_toNat, Machine.unsignedWord_or,
      Machine.unsignedWord_or, UInt16.or_assoc,
      Machine.pair_of_low (k := 3) (m := 0o777) rfl rfl (by decide), hword]
  · intro houtside
    refine ⟨rfl, fun pos => ⟨_, encode_single hcount (firstWord_sob hk ha ho hv pos) (hextra _),
      fun env henv => ?_⟩⟩
    obtain ⟨m, hd, hfar⟩ : ∃ m, (p + 2 - unsignedWord (wrapAddress
        (p + 2 - 2 * unsignedWord (w &&& 0o77)))).toInt = 2 * m ∧ (m < 0 ∨ 63 < m) := by
      rcases Int.lt_or_le (p.toInt + 2 - 2 * (w &&& 0o77).toNat) 0 with hneg | hpos
      · exact ⟨(w &&& 0o77).toNat - 32768, by omega, .inl (by omega)⟩
      · have hbig : 65536 ≤ p.toInt + 2 - 2 * (w &&& 0o77).toNat := by
          by_contra hsmall
          exact houtside (hstays.mpr ⟨hpos, by omega⟩)
        exact ⟨(w &&& 0o77).toNat + 32768, by omega, .inr (by omega)⟩
    rw [intValue_sob hplace henv, sobWord_far hd pos _ hfar]
    exact ⟨_, rfl, _, rfl, rfl⟩

end Branches

end Eleven.Disassembly

import Eleven.Proofs.Disassembly.Operand
import Mathlib.Data.List.Forall2
import Mathlib.Logic.Basic

/-! Decoding undoes encoding: what is stored for an instruction is decoded as the same instruction
with the same operands. -/
namespace Eleven.Disassembly

open Eleven.Assembly (extraWords storedWords firstWord wordValue)
open Eleven.Machine (Instruction Register wrapAddress unsignedWord wordsToBytes)
open Eleven.Source (Operand)

/-- The operands of an instruction at an address are decoded from its first word `w` and the words
`ws` behind it. -/
def Recovers (env : Env) (i : Instruction) (os : List Operand) (p : Int64) (w : UInt16)
    (ws : List UInt16) : Prop :=
  ∃ decoded : List (Arg × List UInt16),
    List.Forall₂ (fun o d => DecodesTo env i.kind o d.1 d.2) os decoded ∧
    ws = decoded.flatMap Prod.snd ∧
    ∀ rest, (decodeArgs i w ⟨p + 2, wordsToBytes ws ++ rest, [w]⟩).map (fun r => (r.1, r.2.taken)) =
      some (decoded.map Prod.fst, ws.reverse ++ [w])

section Classes

variable {env : Env} {i : Instruction} {pos : Position} {pc first : Lazy} {p : Int64} {w : UInt16}
  {ws : List UInt16}

theorem requireAddress_eq_ok {o : Operand} (h : Assembly.requireAddress i pos o = .ok ()) :
    o.kind = .address := by
  unfold Assembly.requireAddress at h
  split_ifs at h with hk
  exact hk

theorem requireRegister_eq_ok {o : Operand} (h : Assembly.requireRegister i pos o = .ok ()) :
    o.kind = .register := by
  unfold Assembly.requireRegister at h
  split_ifs at h with hk
  exact hk

theorem requireExpression_eq_ok {o : Operand} {v : Lazy}
    (h : Assembly.requireExpression i pos o = .ok v) : o.kind = .expression ∧ o.value = some v := by
  unfold Assembly.requireExpression at h
  split at h
  · rename_i hk hv
    cases h
    exact ⟨hk, hv⟩
  · cases h

/-- The first word of an instruction whose operands are known. -/
theorem eq_of_wordValue {x : UInt16} {vs : List Lazy}
    (h : storedWords env pos (wordValue x :: vs) = .ok (w :: ws)) :
    w = x ∧ storedWords env pos vs = .ok ws := by
  obtain ⟨n, ws', hn, hws, heq⟩ := Assembly.storedWords_cons_eq_ok h
  cases heq
  cases hn
  exact ⟨Machine.wrapAddress_unsignedWord x, hws⟩

theorem recovers_one {o : Operand} (hi : i ∈ Instruction.table) (hk : i.kind = .one)
    (ho : o.Written) (hs : ¬ StepsCounter o) (hpc : pc.intValue env = .ok p)
    (hfirst : firstWord i [o] pc pos = .ok first)
    (hws : storedWords env pos (first :: extraWords pc 0 [o]) = .ok (w :: ws)) :
    ∃ f, w = i.opcode ||| f ∧ f &&& i.mask = 0 ∧ Recovers env i [o] p w ws := by
  unfold firstWord at hfirst
  rw [hk] at hfirst
  obtain ⟨⟨⟩, haddr, hfirst⟩ := bind_eq_ok.mp hfirst
  cases hfirst
  obtain ⟨rfl, hextra⟩ := eq_of_wordValue hws
  obtain ⟨arg, xs, ws', rfl, hdec, hnil, harg⟩ :=
    operandArg_address (k := i.kind) ho (requireAddress_eq_ok haddr) hs hpc hextra
  cases hnil
  have hmask : i.mask = 0o177700 := by rw [Instruction.mask, hk]
  have hfield : o.field &&& 0o77 = o.field :=
    Machine.and_low_eq_self (k := 6) rfl (Machine.operandField_lt _ _)
  refine ⟨o.field, rfl, ?_, [(arg, xs)], by simpa using hdec, by simp, fun rest => ?_⟩
  · rw [hmask]
    exact Machine.and_eq_zero_of_within hfield (by decide)
  · have hlow : (i.opcode ||| o.field) &&& 0o77 = o.field := by
      rw [Instruction.opcode_or_and hi (by rw [hmask]; decide), hfield]
    simp only [decodeArgs, hk, hlow]
    rw [show p + 2 = p + Int64.ofNat (2 * 0 + 2) from rfl, harg]
    simp

theorem field_lt (o : Operand) : o.field.toNat < 64 := Machine.operandField_lt _ _

theorem recovers_two {a b : Operand} (hi : i ∈ Instruction.table) (hk : i.kind = .two)
    (ha : a.Written) (hsa : ¬ StepsCounter a) (hb : b.Written) (hsb : ¬ StepsCounter b)
    (hpc : pc.intValue env = .ok p) (hfirst : firstWord i [a, b] pc pos = .ok first)
    (hws : storedWords env pos (first :: extraWords pc 0 [a, b]) = .ok (w :: ws)) :
    ∃ f, w = i.opcode ||| f ∧ f &&& i.mask = 0 ∧ Recovers env i [a, b] p w ws := by
  unfold firstWord at hfirst
  rw [hk] at hfirst
  obtain ⟨⟨⟩, hka, hfirst⟩ := bind_eq_ok.mp hfirst
  obtain ⟨⟨⟩, hkb, hfirst⟩ := bind_eq_ok.mp hfirst
  cases hfirst
  obtain ⟨rfl, hextra⟩ := eq_of_wordValue hws
  obtain ⟨arg, xs, ws', rfl, hdec, hrest, harg⟩ :=
    operandArg_address (k := i.kind) ha (requireAddress_eq_ok hka) hsa hpc hextra
  obtain ⟨arg', ys, ws'', rfl, hdec', hnil, harg'⟩ :=
    operandArg_address (k := i.kind) hb (requireAddress_eq_ok hkb) hsb hpc hrest
  cases hnil
  have hmask : i.mask = 0o170000 := by rw [Instruction.mask, hk]
  rw [UInt16.or_assoc]
  obtain ⟨hf, hlow, hhigh⟩ := Instruction.opcode_or_pair (s := a.field) (d := b.field) (b := 0o77)
    hi (by rw [hmask]; decide) (by decide) (by rw [hmask]; decide)
    (Machine.and_low_eq_self (k := 6) rfl (field_lt a)) (field_lt a) (field_lt b)
  refine ⟨_, rfl, hf, [(arg, xs), (arg', ys)], by simpa using ⟨hdec, hdec'⟩, by simp,
    fun rest => ?_⟩
  simp only [decodeArgs, hk, hlow, hhigh]
  rw [show p + 2 = p + Int64.ofNat (2 * 0 + 2) from rfl, harg]
  simp only [Option.bind_eq_bind, Option.bind_some, harg']
  simp

theorem written_register {o : Operand} (ho : o.Written) (hk : o.kind = .register) :
    ∃ r raw, o = ⟨.register, .register, r, none, false, raw⟩ ∧ r.number.toNat < 8 := by
  cases ho with
  | register r raw hr => exact ⟨r, raw, rfl, hr⟩
  | _ => cases hk

theorem recovers_register {a b : Operand} (hi : i ∈ Instruction.table) (hk : i.kind = .register)
    (ha : a.Written) (hb : b.Written) (hsb : ¬ StepsCounter b) (hpc : pc.intValue env = .ok p)
    (hfirst : firstWord i [a, b] pc pos = .ok first)
    (hws : storedWords env pos (first :: extraWords pc 0 [a, b]) = .ok (w :: ws)) :
    ∃ f, w = i.opcode ||| f ∧ f &&& i.mask = 0 ∧ Recovers env i [a, b] p w ws := by
  unfold firstWord at hfirst
  rw [hk] at hfirst
  obtain ⟨⟨⟩, hka, hfirst⟩ := bind_eq_ok.mp hfirst
  obtain ⟨⟨⟩, hkb, hfirst⟩ := bind_eq_ok.mp hfirst
  cases hfirst
  obtain ⟨rfl, hextra⟩ := eq_of_wordValue hws
  obtain ⟨r, raw, rfl, hr⟩ := written_register ha (requireRegister_eq_ok hka)
  obtain ⟨arg, xs, ws', rfl, hdec, hnil, harg⟩ :=
    operandArg_address (k := i.kind) hb (requireAddress_eq_ok hkb) hsb hpc
      (show storedWords env pos (extraWords pc 0 [b]) = .ok ws from hextra)
  cases hnil
  have hmask : i.mask = 0o177000 := by rw [Instruction.mask, hk]
  rw [UInt16.or_assoc]
  obtain ⟨hf, hlow, hhigh⟩ := Instruction.opcode_or_pair (s := r.number) (d := b.field) (b := 7)
    hi (by rw [hmask]; decide) (by decide) (by rw [hmask]; decide)
    (Machine.and_low_eq_self (k := 3) rfl hr) (by omega) (field_lt b)
  refine ⟨_, rfl, hf, [(.register r, []), (arg, xs)], by simpa using ⟨.register r raw, hdec⟩,
    by simp, fun rest => ?_⟩
  simp only [decodeArgs, hk, hlow, hhigh]
  rw [show p + 2 = p + Int64.ofNat (2 * 0 + 2) from rfl, harg]
  simp

theorem recovers_registerSource {a b : Operand} (hi : i ∈ Instruction.table)
    (hk : i.kind = .registerSource) (ha : a.Written) (hsa : ¬ StepsCounter a) (hb : b.Written)
    (hpc : pc.intValue env = .ok p) (hfirst : firstWord i [a, b] pc pos = .ok first)
    (hws : storedWords env pos (first :: extraWords pc 0 [a, b]) = .ok (w :: ws)) :
    ∃ f, w = i.opcode ||| f ∧ f &&& i.mask = 0 ∧ Recovers env i [a, b] p w ws := by
  unfold firstWord at hfirst
  rw [hk] at hfirst
  obtain ⟨⟨⟩, hka, hfirst⟩ := bind_eq_ok.mp hfirst
  obtain ⟨⟨⟩, hkb, hfirst⟩ := bind_eq_ok.mp hfirst
  cases hfirst
  obtain ⟨rfl, hextra⟩ := eq_of_wordValue hws
  obtain ⟨r, raw, rfl, hr⟩ := written_register hb (requireRegister_eq_ok hkb)
  obtain ⟨arg, xs, ws', rfl, hdec, hnil, harg⟩ :=
    operandArg_address (k := i.kind) ha (requireAddress_eq_ok hka) hsa hpc hextra
  cases hnil
  have hmask : i.mask = 0o177000 := by rw [Instruction.mask, hk]
  rw [UInt16.or_assoc]
  obtain ⟨hf, hlow, hhigh⟩ := Instruction.opcode_or_pair (s := r.number) (d := a.field) (b := 7)
    hi (by rw [hmask]; decide) (by decide) (by rw [hmask]; decide)
    (Machine.and_low_eq_self (k := 3) rfl hr) (by omega) (field_lt a)
  refine ⟨_, rfl, hf, [(arg, xs), (.register r, [])], by simpa using ⟨hdec, .register r raw⟩,
    by simp, fun rest => ?_⟩
  simp only [decodeArgs, hk, hlow, hhigh]
  rw [show p + 2 = p + Int64.ofNat (2 * 0 + 2) from rfl, harg]
  simp

theorem recovers_zero (hk : i.kind = .zero) (hfirst : firstWord i [] pc pos = .ok first)
    (hws : storedWords env pos (first :: extraWords pc 0 []) = .ok (w :: ws)) :
    ∃ f, w = i.opcode ||| f ∧ f &&& i.mask = 0 ∧ Recovers env i [] p w ws := by
  unfold firstWord at hfirst
  rw [hk] at hfirst
  cases hfirst
  obtain ⟨rfl, hextra⟩ := eq_of_wordValue hws
  cases hextra
  refine ⟨0, by simp, by simp, [], by simp, rfl, fun rest => ?_⟩
  simp [decodeArgs, hk]

theorem recovers_rts {o : Operand} (hi : i ∈ Instruction.table) (hk : i.kind = .rts)
    (ho : o.Written) (hfirst : firstWord i [o] pc pos = .ok first)
    (hws : storedWords env pos (first :: extraWords pc 0 [o]) = .ok (w :: ws)) :
    ∃ f, w = i.opcode ||| f ∧ f &&& i.mask = 0 ∧ Recovers env i [o] p w ws := by
  unfold firstWord at hfirst
  rw [hk] at hfirst
  obtain ⟨⟨⟩, hko, hfirst⟩ := bind_eq_ok.mp hfirst
  cases hfirst
  obtain ⟨rfl, hextra⟩ := eq_of_wordValue hws
  obtain ⟨r, raw, rfl, hr⟩ := written_register ho (requireRegister_eq_ok hko)
  cases hextra
  have hmask : i.mask = 0o177770 := by rw [Instruction.mask, hk]
  have hfield : r.number &&& 7 = r.number := Machine.and_low_eq_self (k := 3) rfl hr
  refine ⟨r.number, rfl, ?_, [(.register r, [])], by simpa using .register r raw, rfl,
    fun rest => ?_⟩
  · rw [hmask]
    exact Machine.and_eq_zero_of_within hfield (by decide)
  · have hlow : (i.opcode ||| r.number) &&& 7 = r.number := by
      rw [Instruction.opcode_or_and hi (by rw [hmask]; decide), hfield]
    simp [decodeArgs, hk, hlow]

theorem written_expression {o : Operand} {v : Lazy} (ho : o.Written)
    (hk : o.kind = .expression ∧ o.value = some v) :
    ∃ raw, o = ⟨.expression, .register, ⟨0⟩, some v, false, raw⟩ := by
  cases ho with
  | expression v' raw => cases hk.2; exact ⟨raw, rfl⟩
  | _ => cases hk.1

theorem immediateWord_eq_ok {n m : Int64} (h : Assembly.immediateWord i pos n = .ok m) :
    0 ≤ n.toInt ∧ n.toInt ≤ i.max.toInt ∧ n.toInt.toNat % (1 <<< min i.shift 64) = 0 ∧
      wrapAddress m = i.opcode ||| UInt16.ofNat (n.toInt.toNat / (1 <<< min i.shift 64)) := by
  dsimp only [Assembly.immediateWord] at h
  split_ifs at h with hbig hneg hodd
  rw [gt_iff_lt, Int64.not_lt, Int64.le_iff_toInt_le] at hbig
  rw [Int64.not_lt, Int64.le_iff_toInt_le] at hneg
  refine ⟨hneg, hbig, Decidable.not_not.mp hodd, ?_⟩
  rw [← Except.ok.inj h, Machine.wrapAddress_or, Machine.wrapAddress_unsignedWord,
    Machine.wrapAddress_ofNat, Int64.toNatClampNeg]

theorem recovers_immediate {o : Operand} (hi : i ∈ Instruction.table) (hk : i.kind = .immediate)
    (ho : o.Written) (hfirst : firstWord i [o] pc pos = .ok first)
    (hws : storedWords env pos (first :: extraWords pc 0 [o]) = .ok (w :: ws)) :
    ∃ f, w = i.opcode ||| f ∧ f &&& i.mask = 0 ∧ Recovers env i [o] p w ws := by
  unfold firstWord at hfirst
  rw [hk] at hfirst
  obtain ⟨v, hko, hfirst⟩ := bind_eq_ok.mp hfirst
  cases hfirst
  obtain ⟨m, ws', hm, hextra, heq⟩ := Assembly.storedWords_cons_eq_ok hws
  cases heq
  obtain ⟨raw, rfl⟩ := written_expression ho (requireExpression_eq_ok hko)
  cases hextra
  obtain ⟨n, hv, hm⟩ := bind_eq_ok.mp ((Lazy.intValue_mapInt env _ _).symm.trans hm)
  obtain ⟨hshift, hmax, k, -, hbits⟩ := Instruction.immediate_layout i hi hk
  obtain ⟨hlow, hhigh, heven, hword⟩ := immediateWord_eq_ok hm
  rw [hshift] at heven hword
  change n.toInt.toNat % 2 = 0 at heven
  change wrapAddress m = i.opcode ||| UInt16.ofNat (n.toInt.toNat / 2) at hword
  have hmask : i.mask = ~~~i.immediateField := by rw [Instruction.mask, hk]
  have hfield := i.immediateField.toNat_lt
  have hpos := Nat.two_pow_pos k
  have hf : (UInt16.ofNat (n.toInt.toNat / 2)).toNat = n.toInt.toNat / 2 :=
    UInt16.toNat_ofNat_of_lt' (by change _ < 65536; omega)
  have hwithin : UInt16.ofNat (n.toInt.toNat / 2) &&& i.immediateField =
      UInt16.ofNat (n.toInt.toNat / 2) := Machine.and_low_eq_self hbits (by omega)
  refine ⟨_, hword, ?_, [(.constant n, [])], by simpa using .constant v n raw hk hv, rfl,
    fun rest => ?_⟩
  · rw [hmask]
    exact Machine.and_eq_zero_of_within hwithin UInt16.and_not_self
  · have hconst : Int64.ofNat ((wrapAddress m &&& i.immediateField).toNat <<< i.shift) = n := by
      rw [hword, Instruction.opcode_or_and hi (by rw [hmask]; exact UInt16.and_not_self), hwithin,
        hf, hshift, ← Int64.toInt_inj, Nat.shiftLeft_eq, Int64.toInt_ofNat_of_lt (by omega)]
      omega
    simp only [decodeArgs, hk, hconst]
    rfl

theorem branchWord_eq_ok {d m : Int64} (h : Assembly.branchWord i pos d = .ok m) :
    d % 2 = 0 ∧ -128 ≤ (d / 2).toInt ∧ (d / 2).toInt ≤ 127 ∧
      wrapAddress m = i.opcode ||| (wrapAddress (d / 2) &&& 0xFF) := by
  unfold Assembly.branchWord at h
  split_ifs at h with hodd hfar
  rw [not_or, Int64.not_lt, gt_iff_lt, Int64.not_lt, Int64.le_iff_toInt_le,
    Int64.le_iff_toInt_le] at hfar
  refine ⟨Decidable.not_not.mp hodd, hfar.1, hfar.2, ?_⟩
  rw [← Except.ok.inj h, Machine.wrapAddress_or, Machine.wrapAddress_and,
    Machine.wrapAddress_unsignedWord]
  rfl

theorem recovers_branch {o : Operand} (hi : i ∈ Instruction.table) (hk : i.kind = .branch)
    (ho : o.Written) (hpc : pc.intValue env = .ok p) (hfirst : firstWord i [o] pc pos = .ok first)
    (hws : storedWords env pos (first :: extraWords pc 0 [o]) = .ok (w :: ws)) :
    ∃ f, w = i.opcode ||| f ∧ f &&& i.mask = 0 ∧ Recovers env i [o] p w ws := by
  unfold firstWord at hfirst
  rw [hk] at hfirst
  obtain ⟨v, hko, hfirst⟩ := bind_eq_ok.mp hfirst
  cases hfirst
  obtain ⟨m, ws', hm, hextra, heq⟩ := Assembly.storedWords_cons_eq_ok hws
  cases heq
  obtain ⟨raw, rfl⟩ := written_expression ho (requireExpression_eq_ok hko)
  cases hextra
  obtain ⟨d, hd, hm⟩ := bind_eq_ok.mp ((Lazy.intValue_mapInt env _ _).symm.trans hm)
  obtain ⟨n, hv, hd⟩ := bind_eq_ok.mp ((Lazy.intValue_sub env _ _).symm.trans hd)
  rw [Lazy.intValue_addInt, hpc, ok_bind, ok_bind] at hd
  have hd : n - (p + 2) = d := Except.ok.inj hd
  obtain ⟨heven, hlow, hhigh, hword⟩ := branchWord_eq_ok hm
  have hmask : i.mask = 0o177400 := by rw [Instruction.mask, hk]
  have hwithin : (wrapAddress (d / 2) &&& 0xFF) &&& 0xFF = wrapAddress (d / 2) &&& 0xFF := by
    rw [UInt16.and_assoc, UInt16.and_self]
  refine ⟨_, hword, ?_, [(.place false (wrapAddress n), [])],
    by simpa using .target v n raw (.inl hk) hv, rfl, fun rest => ?_⟩
  · rw [hmask]
    exact Machine.and_eq_zero_of_within hwithin (by decide)
  · have hbyte : (wrapAddress m).toUInt8 = (wrapAddress (d / 2)).toUInt8 := by
      have h := Instruction.opcode_or_and (f := wrapAddress (d / 2) &&& 0xFF) (b := 0xFF) hi
        (by rw [hmask]; decide)
      rw [← hword, hwithin] at h
      simpa only [Machine.toUInt8_and_255] using congrArg UInt16.toUInt8 h
    have htarget : p + 2 + 2 * (wrapAddress m).toUInt8.toInt8.toInt64 = n := by
      rw [hbyte, Machine.toInt8_wrapAddress hlow hhigh, Machine.two_mul_div_two heven, ← hd,
        Int64.add_comm, Int64.sub_add_cancel]
    simp only [decodeArgs, hk, htarget]
    rfl

theorem sobWord_eq_ok {r d m : Int64} (h : Assembly.sobWord i r pos d = .ok m) :
    d % 2 = 0 ∧ 0 ≤ (d / 2).toInt ∧ (d / 2).toInt ≤ 63 ∧
      wrapAddress m = i.opcode ||| wrapAddress (r <<< 6) ||| wrapAddress (d / 2) := by
  unfold Assembly.sobWord at h
  split_ifs at h with hodd hfar
  rw [not_or, Int64.not_lt, gt_iff_lt, Int64.not_lt, Int64.le_iff_toInt_le,
    Int64.le_iff_toInt_le] at hfar
  refine ⟨Decidable.not_not.mp hodd, hfar.1, hfar.2, ?_⟩
  rw [← Except.ok.inj h, Machine.wrapAddress_or, Machine.wrapAddress_or,
    Machine.wrapAddress_unsignedWord]

theorem recovers_sob {a b : Operand} (hi : i ∈ Instruction.table) (hk : i.kind = .sob)
    (ha : a.Written) (hb : b.Written) (hpc : pc.intValue env = .ok p)
    (hfirst : firstWord i [a, b] pc pos = .ok first)
    (hws : storedWords env pos (first :: extraWords pc 0 [a, b]) = .ok (w :: ws)) :
    ∃ f, w = i.opcode ||| f ∧ f &&& i.mask = 0 ∧ Recovers env i [a, b] p w ws := by
  unfold firstWord at hfirst
  rw [hk] at hfirst
  obtain ⟨⟨⟩, hka, hfirst⟩ := bind_eq_ok.mp hfirst
  obtain ⟨v, hkb, hfirst⟩ := bind_eq_ok.mp hfirst
  cases hfirst
  obtain ⟨m, ws', hm, hextra, heq⟩ := Assembly.storedWords_cons_eq_ok hws
  cases heq
  obtain ⟨r, raw, rfl, hr⟩ := written_register ha (requireRegister_eq_ok hka)
  obtain ⟨raw', rfl⟩ := written_expression hb (requireExpression_eq_ok hkb)
  cases hextra
  obtain ⟨d, hd, hm⟩ := bind_eq_ok.mp ((Lazy.intValue_mapInt env _ _).symm.trans hm)
  rw [Lazy.intValue_sub, Lazy.intValue_addInt, hpc, ok_bind, ok_bind] at hd
  obtain ⟨n, hv, hd⟩ := bind_eq_ok.mp hd
  have hd : p + 2 - n = d := Except.ok.inj hd
  obtain ⟨heven, hlow, hhigh, hword⟩ := sobWord_eq_ok hm
  rw [Machine.wrapAddress_ofNat_shiftLeft_6 _ hr, UInt16.ofNat_toNat, UInt16.or_assoc] at hword
  have hmask : i.mask = 0o177000 := by rw [Instruction.mask, hk]
  have hback : unsignedWord (wrapAddress (d / 2)) = d / 2 :=
    Machine.unsignedWord_wrapAddress hlow (by omega)
  have hlt : (wrapAddress (d / 2)).toNat < 64 := by
    have h := Machine.toInt_unsignedWord (wrapAddress (d / 2))
    rw [hback] at h
    omega
  obtain ⟨hf, hfield, hregister⟩ := Instruction.opcode_or_pair (s := r.number)
    (d := wrapAddress (d / 2)) (b := 7) hi (by rw [hmask]; decide) (by decide)
    (by rw [hmask]; decide) (Machine.and_low_eq_self (k := 3) rfl hr) (by omega) hlt
  rw [← hword] at hfield hregister
  refine ⟨_, hword, hf, [(.register r, []), (.place false (wrapAddress n), [])],
    by simpa using ⟨.register r raw, .target v n raw' (.inr hk) hv⟩, rfl, fun rest => ?_⟩
  have htarget : p + 2 - 2 * unsignedWord (wrapAddress m &&& 0o77) = n := by
    rw [hfield, hback, Machine.two_mul_div_two heven, ← hd]
    grind
  simp only [decodeArgs, hk, htarget, hregister]
  rfl

end Classes

/-- The words of an instruction hold its opcode and what is needed to recover its operands. -/
theorem recovers_encode {env : Env} {i : Instruction} {os : List Operand} {pos : Position}
    {pc : Lazy} {p : Int64} {words : List Lazy} {ws : List UInt16} (hi : i ∈ Instruction.table)
    (hos : ∀ o ∈ os, o.Written) (hs : ∀ o ∈ os, ¬ StepsCounter o) (hpc : pc.intValue env = .ok p)
    (hwords : Assembly.encode i os pc pos = .ok words)
    (hws : storedWords env pos words = .ok ws) :
    ∃ w rest f, ws = w :: rest ∧ w = i.opcode ||| f ∧ f &&& i.mask = 0 ∧
      Recovers env i os p w rest := by
  unfold Assembly.encode at hwords
  split_ifs at hwords with hcount
  obtain ⟨first, hfirst, h⟩ := bind_eq_ok.mp hwords
  cases h
  obtain ⟨n, rest, -, -, rfl⟩ := Assembly.storedWords_cons_eq_ok hws
  suffices h : ∃ f, wrapAddress n = i.opcode ||| f ∧ f &&& i.mask = 0 ∧
      Recovers env i os p (wrapAddress n) rest by
    obtain ⟨f, h⟩ := h
    exact ⟨wrapAddress n, rest, f, rfl, h⟩
  have hlen := Decidable.not_not.mp hcount
  cases hk : i.kind <;> rw [hk] at hlen
  case zero =>
    obtain rfl := List.length_eq_zero_iff.mp hlen
    exact recovers_zero hk hfirst hws
  case one =>
    obtain ⟨o, rfl⟩ := List.length_eq_one_iff.mp hlen
    exact recovers_one hi hk (hos o (by simp)) (hs o (by simp)) hpc hfirst hws
  case two =>
    obtain ⟨a, b, rfl⟩ := List.length_eq_two.mp hlen
    exact recovers_two hi hk (hos a (by simp)) (hs a (by simp)) (hos b (by simp)) (hs b (by simp))
      hpc hfirst hws
  case register =>
    obtain ⟨a, b, rfl⟩ := List.length_eq_two.mp hlen
    exact recovers_register hi hk (hos a (by simp)) (hos b (by simp)) (hs b (by simp)) hpc hfirst
      hws
  case registerSource =>
    obtain ⟨a, b, rfl⟩ := List.length_eq_two.mp hlen
    exact recovers_registerSource hi hk (hos a (by simp)) (hs a (by simp)) (hos b (by simp)) hpc
      hfirst hws
  case rts =>
    obtain ⟨o, rfl⟩ := List.length_eq_one_iff.mp hlen
    exact recovers_rts hi hk (hos o (by simp)) hfirst hws
  case immediate =>
    obtain ⟨o, rfl⟩ := List.length_eq_one_iff.mp hlen
    exact recovers_immediate hi hk (hos o (by simp)) hfirst hws
  case branch =>
    obtain ⟨o, rfl⟩ := List.length_eq_one_iff.mp hlen
    exact recovers_branch hi hk (hos o (by simp)) hpc hfirst hws
  case sob =>
    obtain ⟨a, b, rfl⟩ := List.length_eq_two.mp hlen
    exact recovers_sob hi hk (hos a (by simp)) (hos b (by simp)) hpc hfirst hws
  case unassigned =>
    obtain rfl := List.length_eq_zero_iff.mp hlen
    unfold firstWord at hfirst
    rw [hk] at hfirst
    cases hfirst

theorem decodeArgs_of_same {i j : Instruction} (h : i.Same j) (w : UInt16) (c : Cursor) :
    decodeArgs j w c = decodeArgs i w c := by
  rw [h.1]
  rfl

/-- A line decoded from what recovers the operands. -/
theorem decode_of_recovers {env : Env} {i j : Instruction} {os : List Operand} {p : Int64}
    {w : UInt16} {ws : List UInt16} (hw : Instruction.ofWord? w = some j) (hij : i.Same j)
    (h : Recovers env i os p w ws) :
    ∃ decoded : List (Arg × List UInt16),
      List.Forall₂ (fun o d => DecodesTo env i.kind o d.1 d.2) os decoded ∧
      ws = decoded.flatMap Prod.snd ∧
      ∀ rest, Line.decode p w (wordsToBytes ws ++ rest) =
        ⟨p, w :: ws, .instruction j (decoded.map Prod.fst)⟩ := by
  obtain ⟨decoded, hall, hflat, hargs⟩ := h
  refine ⟨decoded, hall, hflat, fun rest => ?_⟩
  have hrun := hargs rest
  rw [← decodeArgs_of_same hij] at hrun
  obtain ⟨⟨args, c⟩, hdec, heq⟩ := Option.map_eq_some_iff.mp hrun
  obtain ⟨rfl, htaken⟩ := Prod.mk.inj heq
  have htaken : c.taken = ws.reverse ++ [w] := htaken
  simp only [Line.decode, hw, hdec, htaken]
  simp

/-- An instruction that a line holds, stored at its address, is decoded as itself. The line decoded
has the same operation and covers the bytes that were stored and no others; its operands and its
words are those of the operands that were written. -/
theorem decode_stored_instruction {file line : String} {decimal : Bool} {number : Nat}
    {h : Source.Header} {os : List Operand} {i : Instruction} {words : List Lazy}
    {ws : List UInt16} {env : Env} {s : Assembly.Session} {p : Int64}
    (hline : (Source.Reader.readLine file decimal number line).1 =
      .statement (.command (.single h (.instruction os))))
    (hsteps : ∀ o ∈ os, ¬ StepsCounter o) (hi : Instruction.ofName? h.mnemonic = some i)
    (hp : s.pc.intValue env = .ok p) (hwords : Assembly.encode i os s.pc h.position = .ok words)
    (hws : storedWords env h.position words = .ok ws) (hlow : 0 ≤ p.toInt)
    (hhigh : p.toInt + 2 * ws.length ≤ 0o200000) (memory : Array UInt8) :
    ∃ s' new memory' low high tail j decoded,
      Assembly.writeInstruction s h os = .ok s' ∧ s'.writes = s.writes ++ new ∧
      Assembly.stored env memory new = .ok memory' ∧
      memory'.toList.drop p.toInt.toNat =
        low :: high :: tail ++ memory.toList.drop (p.toInt.toNat + (low :: high :: tail).length) ∧
      i.Same j ∧ List.Forall₂ (fun o d => DecodesTo env i.kind o d.1 d.2) os decoded ∧
      ∀ rest, ∃ l, Line.decode p (Machine.wordOfBytes low high) (tail ++ rest) = l ∧
        l.size = (low :: high :: tail).length ∧
        l.content = .instruction j (decoded.map Prod.fst) ∧
        l.words.tail = decoded.flatMap Prod.snd := by
  have hmem := Instruction.mem_table_of_ofName? hi
  obtain ⟨w, xs, f, rfl, hwf, hf, hrec⟩ :=
    recovers_encode hmem (Source.written_readLine hline) hsteps hp hwords hws
  obtain ⟨j, hj, hij⟩ := Instruction.ofWord?_opcode_or hmem hf
  rw [← hwf] at hj
  obtain ⟨decoded, hall, hflat, hdec⟩ := decode_of_recovers hj hij hrec
  obtain ⟨first, vs, rfl⟩ : ∃ first vs, words = first :: vs := by
    cases words with
    | nil => cases hws
    | cons first vs => exact ⟨first, vs, rfl⟩
  obtain ⟨⟨new, hnew, hstored⟩, -, -⟩ := Assembly.emits_writeWords hws hp hlow hhigh
  have hbytes : wordsToBytes (w :: xs) =
      w.toUInt8 :: (w >>> 8).toUInt8 :: wordsToBytes xs := rfl
  rw [hbytes] at hstored
  have hwrite : Assembly.writeInstruction s h os =
      .ok (s.writeWords (first :: vs) h.position) := by
    simp only [Assembly.writeInstruction, hi, hwords]
    rfl
  refine ⟨_, new, _, w.toUInt8, (w >>> 8).toUInt8, wordsToBytes xs, j, decoded, hwrite, hnew,
    hstored memory, Assembly.drop_overwrite memory _ _, hij, hall, fun rest => ⟨_, rfl, ?_⟩⟩
  rw [Machine.wordOfBytes_bytesOfWord, hdec rest]
  refine ⟨?_, rfl, hflat⟩
  simp [Line.size, Line.trailing, wordsToBytes, Machine.bytesOfWord]
  omega

theorem readLine_add : (Source.Reader.readLine "T" false 1 "ADD #5, TAB").1 =
    .statement (.command (.single ⟨[], "ADD", ⟨"T", 1, 1, "ADD #5, TAB"⟩⟩ (.instruction
      [⟨.address, .autoIncrement, .pc, some (.int 5), false, "#5"⟩,
        ⟨.address, .index, .pc, some (.symbol "TAB"), true, "TAB"⟩]))) := by
  have htokens : Source.tokenize "ADD #5, TAB" = .ok [⟨.ident "ADD", 1⟩, ⟨.punct '#', 5⟩,
      ⟨.number "5", 6⟩, ⟨.punct ',', 7⟩, ⟨.ident "TAB", 9⟩] := by decide +kernel
  have hfive : Source.expression false [⟨.number "5", 6⟩, ⟨.punct ',', 7⟩, ⟨.ident "TAB", 9⟩] =
      .ok (.number 5, [⟨.punct ',', 7⟩, ⟨.ident "TAB", 9⟩]) := by decide +kernel
  have htab : Source.expression false [⟨.ident "TAB", 9⟩] = .ok (.name "TAB", []) := by
    decide +kernel
  have hplace : Source.Reader.linePosition "T" 1 "ADD #5, TAB" = ⟨"T", 1, 1, "ADD #5, TAB"⟩ := by
    decide +kernel
  have hname : Text.upper "ADD" = "ADD" ∧ Source.isDotted "ADD" = false ∧
      Instruction.ofName? "ADD" = some (Instruction.entry "ADD" 0o060000 .two) ∧
      Register.ofName? "TAB" = none := by decide +kernel
  simp only [Source.Reader.readLine, htokens, Source.Reader.readTokens, hplace, Source.statement,
    Source.takeLabels, Source.named, Source.acceptPunct, Source.instruction]
  simp [hname, Source.operandKinds, Source.operands, Source.operand, Source.operandBody,
    Source.address, Source.acceptPunct, Source.addressBody, Source.autoDecrement?,
    Source.parenthesized?, Source.lazyExpression, Instruction.entry, Source.registerOf?, hfive,
    htab, Source.moreOperands, Source.expectPunct, Source.indexed, Source.Expr.toLazy,
    Operand.withWord, Source.modeOf, Operand.relativeTo, Source.Lexeme.spelling,
    Source.Lexeme.value, Except.mapError]

theorem decode_stored_instruction_add : ∃ h os,
    (Source.Reader.readLine "T" false 1 "ADD #5, TAB").1 =
      .statement (.command (.single h (.instruction os))) ∧
    ∃ s' new memory' low high tail j decoded,
      Assembly.writeInstruction .new h os = .ok s' ∧ s'.writes = [] ++ new ∧
      Assembly.stored (fun _ => .ok (.int 0o2000)) #[] new = .ok memory' ∧
      memory'.toList.drop 0o1000 = low :: high :: tail ++ [] ∧
      (Instruction.entry "ADD" 0o060000 .two).Same j ∧
      List.Forall₂ (fun o d => DecodesTo (fun _ => .ok (.int 0o2000)) .two o d.1 d.2) os decoded ∧
      ∀ rest, ∃ l, Line.decode 0o1000 (Machine.wordOfBytes low high) (tail ++ rest) = l ∧
        l.size = (low :: high :: tail).length ∧
        l.content = .instruction j (decoded.map Prod.fst) ∧
        l.words.tail = decoded.flatMap Prod.snd := by
  refine ⟨_, _, readLine_add, ?_⟩
  have hws : storedWords (fun _ => .ok (.int 0o2000)) ⟨"T", 1, 1, "ADD #5, TAB"⟩
      [wordValue 0o062767, .int 5,
        (Lazy.symbol "TAB").sub ((Lazy.int Assembly.defaultLink).addInt 6)] =
      .ok [0o062767, 5, 0o2000 - 0o1006] := by decide +kernel
  exact decode_stored_instruction (s := .new) (p := Assembly.defaultLink)
    (i := Instruction.entry "ADD" 0o060000 .two) readLine_add (by simp [StepsCounter])
    (by decide +kernel) rfl rfl hws (by decide) (by decide) #[]

end Eleven.Disassembly

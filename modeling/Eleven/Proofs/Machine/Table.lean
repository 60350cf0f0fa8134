import Eleven.Machine.Instruction
import Eleven.Proofs.Machine.Field
import Mathlib.Data.List.Nodup
import Mathlib.Data.List.Pairwise

/-! The instruction table: no word is two instructions, and operands never touch the opcode. -/
namespace Eleven.Machine.Instruction

/-- Some word has the fixed bits of both. -/
def Overlaps (i j : Instruction) : Prop := i.opcode &&& j.mask = j.opcode &&& i.mask

instance (i j : Instruction) : Decidable (i.Overlaps j) :=
  inferInstanceAs (Decidable (i.opcode &&& j.mask = j.opcode &&& i.mask))

/-- Two names of one opcode. -/
def aliases : List (String × String) := [("BHIS", "BCC"), ("BLO", "BCS")]

/-- The same instruction, perhaps under the other of its two names. -/
def Same (i j : Instruction) : Prop :=
  j = { i with name := j.name } ∧
    (j.name = i.name ∨ (i.name, j.name) ∈ aliases ∨ (j.name, i.name) ∈ aliases)

instance (i j : Instruction) : Decidable (i.Same j) :=
  inferInstanceAs (Decidable (_ ∧ _))

/-- All that has to be looked up in the table: what holds of each instruction, of neighbours, and of
each two. The last is compared as numbers, and once for the two. -/
theorem table_checked :
    (∀ i ∈ table, i.opcode &&& i.mask = i.opcode) ∧
    (∀ i ∈ table, i.kind = .immediate →
      (i.shift = 1 ∧ i.max.toInt = 2 * i.immediateField.toNat + 1 ∧
        ∃ k ∈ [2, 5, 7], i.immediateField.toNat = 2 ^ k - 1) ∧
      (i.max >>> 1).toInt = i.max.toInt / 2) ∧
    (table.map (·.name)).IsChain (· < ·) ∧
    table.Pairwise fun i j =>
      i.opcode.toNat &&& j.mask.toNat = j.opcode.toNat &&& i.mask.toNat → i.Same j := by
  decide +kernel

theorem opcode_and_mask : ∀ i ∈ table, i.opcode &&& i.mask = i.opcode := table_checked.1

/-- A small constant is written in bytes and stored in words, so the largest one fills its field. -/
theorem immediate_layout : ∀ i ∈ table, i.kind = .immediate →
    i.shift = 1 ∧ i.max.toInt = 2 * i.immediateField.toNat + 1 ∧
      ∃ k ∈ [2, 5, 7], i.immediateField.toNat = 2 ^ k - 1 :=
  fun i hi hk => (table_checked.2.1 i hi hk).1

theorem immediate_max_shiftRight : ∀ i ∈ table, i.kind = .immediate →
    (i.max >>> 1).toInt = i.max.toInt / 2 :=
  fun i hi hk => (table_checked.2.1 i hi hk).2

theorem Overlaps.symm {i j : Instruction} (h : i.Overlaps j) : j.Overlaps i := Eq.symm h

theorem Overlaps.toNat_eq {i j : Instruction} (h : i.Overlaps j) :
    i.opcode.toNat &&& j.mask.toNat = j.opcode.toNat &&& i.mask.toNat := by
  rw [← UInt16.toNat_and, ← UInt16.toNat_and, h]

theorem Same.refl (i : Instruction) : i.Same i := ⟨rfl, .inl rfl⟩

theorem Same.symm {i j : Instruction} (h : i.Same j) : j.Same i := by
  obtain ⟨heq, hname⟩ := h
  refine ⟨by rw [heq], ?_⟩
  rcases hname with hname | hname | hname
  · exact .inl hname.symm
  · exact .inr (.inr hname)
  · exact .inr (.inl hname)

theorem same_of_overlaps : ∀ i ∈ table, ∀ j ∈ table, i.Overlaps j → i.Same j := by
  have hpairs : table.Pairwise fun i j => i.Overlaps j → i.Same j :=
    List.Pairwise.imp (fun h hover => h hover.toNat_eq) table_checked.2.2.2
  have hsymm : Std.Symm fun i j : Instruction => i.Overlaps j → i.Same j :=
    ⟨fun _ _ h hover => (h hover.symm).symm⟩
  intro i hi j hj
  exact hpairs.forall_of_forall (fun i _ _ => Same.refl i) hi hj

theorem mem_table_of_ofName? {s : String} {i : Instruction} (h : ofName? s = some i) :
    i ∈ table := by
  unfold ofName? at h
  exact List.mem_of_find?_eq_some h

/-- The table is in the order of names, so it has each name once. -/
theorem nodup_names : (table.map (·.name)).Nodup := by
  have hpairs := List.IsChain.pairwise table_checked.2.2.1
  exact hpairs.nodup

theorem ofName?_name {i : Instruction} (hi : i ∈ table) (hupper : Text.upper i.name = i.name) :
    ofName? i.name = some i := by
  unfold ofName?
  dsimp only
  rw [hupper]
  cases hfound : table.find? (·.name == i.name) with
  | none =>
    have hnone := List.find?_eq_none.mp hfound i hi
    simp at hnone
  | some j =>
    have hname : j.name = i.name := by simpa using List.find?_some hfound
    rw [List.inj_on_of_nodup_map nodup_names (List.mem_of_find?_eq_some hfound) hi hname]

theorem mem_bySpecificity {i : Instruction} : i ∈ bySpecificity ↔ i ∈ table := by
  have hbits : i.fixedBits < 17 := by
    have h := List.length_filter_le (fun k => i.mask.toNat.testBit k) (List.range 16)
    rw [List.length_range] at h
    exact Nat.lt_succ_of_le h
  simp only [bySpecificity, List.mem_flatMap, List.mem_reverse, List.mem_range, List.mem_filter,
    beq_iff_eq]
  constructor
  · rintro ⟨_, _, hi, _⟩
    exact hi
  · intro hi
    exact ⟨i.fixedBits, hbits, hi, rfl⟩

theorem ofWord?_eq_some {w : UInt16} {i : Instruction} (h : ofWord? w = some i) :
    i ∈ table ∧ w &&& i.mask = i.opcode := by
  refine ⟨mem_bySpecificity.mp (List.mem_of_find?_eq_some h), ?_⟩
  simpa using List.find?_some h

/-- A word with the fixed bits of an instruction is that instruction. -/
theorem ofWord?_of_and_mask {w : UInt16} {i : Instruction} (hi : i ∈ table)
    (hw : w &&& i.mask = i.opcode) : ∃ j, ofWord? w = some j ∧ i.Same j := by
  cases h : ofWord? w with
  | none =>
    have hnone := List.find?_eq_none.mp h i (mem_bySpecificity.mpr hi)
    simp [hw] at hnone
  | some j =>
    obtain ⟨hj, hwj⟩ := ofWord?_eq_some h
    refine ⟨j, rfl, same_of_overlaps i hi j hj ?_⟩
    rw [Overlaps, ← hw, ← hwj, UInt16.and_assoc, UInt16.and_assoc, UInt16.and_comm i.mask]

section Packing

variable {i : Instruction} {f : UInt16}

/-- What lies outside the fixed bits leaves the instruction what it is. -/
theorem ofWord?_opcode_or (hi : i ∈ table) (hf : f &&& i.mask = 0) :
    ∃ j, ofWord? (i.opcode ||| f) = some j ∧ i.Same j := by
  refine ofWord?_of_and_mask hi ?_
  rw [or_and_distrib, opcode_and_mask i hi, hf, UInt16.or_zero]

theorem opcode_or_and (hi : i ∈ table) {b : UInt16} (hb : b &&& i.mask = 0) :
    (i.opcode ||| f) &&& b = f &&& b := by
  have hop : i.opcode &&& b = 0 := by
    rw [← opcode_and_mask i hi, UInt16.and_assoc, UInt16.and_comm i.mask, hb, UInt16.and_zero]
  rw [or_and_distrib, hop, UInt16.zero_or]

theorem opcode_or_shiftRight_and (hi : i ∈ table) {b : UInt16} (hb : (b <<< 6) &&& i.mask = 0)
    (hb' : (b <<< 6) >>> 6 = b) : ((i.opcode ||| f) >>> 6) &&& b = (f >>> 6) &&& b := by
  have h := opcode_or_and (f := f) hi hb
  have hshift := congrArg (· >>> (6 : UInt16)) h
  simpa only [UInt16.shiftRight_and, hb'] using hshift

/-- A six-bit field below another field whose bits are `b`. -/
theorem opcode_or_pair (hi : i ∈ table) {s d b : UInt16} (hb : (b <<< 6) &&& i.mask = 0)
    (hb' : (b <<< 6) >>> 6 = b) (hlow : 0o77 &&& i.mask = 0) (hsb : s &&& b = s)
    (hs : s.toNat < 64) (hd : d.toNat < 64) :
    ((s <<< 6) ||| d) &&& i.mask = 0 ∧ (i.opcode ||| ((s <<< 6) ||| d)) &&& 0o77 = d ∧
      ((i.opcode ||| ((s <<< 6) ||| d)) >>> 6) &&& b = s := by
  refine ⟨?_, ?_, ?_⟩
  · have hshift : (s <<< 6) &&& (b <<< 6) = s <<< 6 := by rw [← UInt16.shiftLeft_and, hsb]
    rw [or_and_distrib, and_eq_zero_of_within hshift hb,
      and_eq_zero_of_within (and_low_eq_self (k := 6) rfl hd) hlow, UInt16.or_zero]
  · rw [opcode_or_and hi hlow, shiftLeft_6_or_and_63 hs hd]
  · rw [opcode_or_shiftRight_and hi hb hb', shiftLeft_6_or_shiftRight hs hd, hsb]

end Packing

/-- The bits of the first word that operands fill. -/
def operandBits (i : Instruction) : UInt16 :=
  match i.kind with
  | .zero => 0
  | .one => 0o77
  | .two => 0o7777
  | .register => 0o777
  | .registerSource => 0o777
  | .rts => 0o7
  | .immediate => i.immediateField
  | .branch => 0o377
  | .sob => 0o777
  | .unassigned _ => 0

theorem not_mask (i : Instruction) : ~~~i.mask = i.operandBits := by
  unfold mask operandBits
  cases i.kind with
  | immediate => exact UInt16.not_not
  | _ =>
    dsimp only
    decide

theorem opcode_or_operandBits {i : Instruction} {w : UInt16} (hw : w &&& i.mask = i.opcode) :
    i.opcode ||| (w &&& i.operandBits) = w := by
  rw [← hw, ← not_mask, and_or_and_not]

end Eleven.Machine.Instruction

import Eleven.Assembly.Image
import Eleven.Proofs.Machine.Word

/-! What a store does to memory. -/
namespace Eleven.Assembly

/-- The byte that an integer is stored as. -/
def byteOf (b : Int64) : UInt8 := UInt8.ofNat b.toNatClampNeg

/-- Whether an integer is a byte. -/
def IsByte (b : Int64) : Prop := 0 ≤ b.toInt ∧ b.toInt ≤ 255

instance (b : Int64) : Decidable (IsByte b) :=
  inferInstanceAs (Decidable (0 ≤ b.toInt ∧ b.toInt ≤ 255))

theorem isByte_iff {b : Int64} : IsByte b ↔ ¬ (b < 0 ∨ b > 0xFF) := by
  rw [not_or, Int64.not_lt, Int64.le_iff_toInt_le, gt_iff_lt, Int64.not_lt, Int64.le_iff_toInt_le]
  rfl

/-- Memory with bytes put at an address, and zeros before them if it ended earlier. -/
def overwrite (memory : Array UInt8) (address : Nat) (bytes : List UInt8) : Array UInt8 :=
  let grown := (growTo (address + bytes.length) memory).toList
  (grown.take address ++ bytes ++ grown.drop (address + bytes.length)).toArray

theorem toList_growTo (n : Nat) (memory : Array UInt8) :
    (growTo n memory).toList = memory.toList ++ List.replicate (n - memory.size) 0 := by
  unfold growTo
  split
  · simp
  · have hz : n - memory.size = 0 := by omega
    simp [hz]

theorem size_growTo (n : Nat) (memory : Array UInt8) :
    (growTo n memory).size = max memory.size n := by
  rw [← Array.length_toList, toList_growTo, List.length_append, List.length_replicate,
    Array.length_toList]
  omega

theorem growTo_growTo (n : Nat) (memory : Array UInt8) :
    growTo n (growTo n memory) = growTo n memory := by
  rw [← Array.toList_inj, toList_growTo, size_growTo]
  have hz : n - max memory.size n = 0 := by omega
  simp [hz]

theorem toList_overwrite (memory : Array UInt8) (address : Nat) (bytes : List UInt8) :
    (overwrite memory address bytes).toList =
      memory.toList.take address ++ List.replicate (address - memory.size) 0 ++ bytes ++
        memory.toList.drop (address + bytes.length) := by
  have hdrop : (List.replicate (address + bytes.length - memory.size) (0 : UInt8)).drop
      (address + bytes.length - memory.size) = [] := by simp
  have htake : (List.replicate (address + bytes.length - memory.size) (0 : UInt8)).take
      (address - memory.size) = List.replicate (address - memory.size) 0 := by
    rw [List.take_replicate]
    congr 1
    omega
  rw [overwrite, toList_growTo]
  simp only [List.take_append, List.drop_append, Array.length_toList, hdrop, htake,
    List.append_nil]

theorem size_overwrite (memory : Array UInt8) (address : Nat) (bytes : List UInt8) :
    (overwrite memory address bytes).size = max memory.size (address + bytes.length) := by
  rw [← Array.length_toList, toList_overwrite]
  simp
  omega

theorem drop_overwrite (memory : Array UInt8) (address : Nat) (bytes : List UInt8) :
    (overwrite memory address bytes).toList.drop address =
      bytes ++ memory.toList.drop (address + bytes.length) := by
  rw [toList_overwrite, List.append_assoc, List.drop_append]
  have hlen : (memory.toList.take address ++
      List.replicate (address - memory.size) (0 : UInt8)).length = address := by
    simp
    omega
  rw [hlen]
  simp [List.drop_eq_nil_of_le, hlen]

/-- Bytes may be stored in two parts. -/
theorem overwrite_overwrite (memory : Array UInt8) (address : Nat) (first rest : List UInt8) :
    overwrite (overwrite memory address first) (address + first.length) rest =
      overwrite memory address (first ++ rest) := by
  have hlen : (memory.toList.take address ++ List.replicate (address - memory.size) 0 ++
      first).length = address + first.length := by
    simp
    omega
  have hroom : address + first.length - (overwrite memory address first).size = 0 := by
    rw [size_overwrite]
    omega
  rw [← Array.toList_inj, toList_overwrite, hroom, toList_overwrite, toList_overwrite,
    List.take_left' hlen, ← List.drop_drop, List.drop_left' hlen, List.drop_drop]
  simp [Nat.add_assoc]

/-- Storing bytes that memory has room for. -/
theorem storeFrom_of_fits (pos : Position) {bs : List Int64} (hbs : ∀ b ∈ bs, IsByte b)
    (memory : Array UInt8) (address : Nat) (hfit : address + bs.length ≤ memory.size) :
    storeFrom pos memory address bs = .ok (overwrite memory address (bs.map byteOf)) := by
  induction bs generalizing memory address with
  | nil =>
    rw [storeFrom, Except.ok.injEq, ← Array.toList_inj, toList_overwrite]
    have hz : address - memory.size = 0 := by simp at hfit; omega
    simp [hz]
  | cons b bs ih =>
    have hbyte := isByte_iff.mp (hbs b (by simp))
    rw [List.length_cons] at hfit
    have hset : memory.setIfInBounds address (byteOf b) = overwrite memory address [byteOf b] := by
      have hz : address - memory.size = 0 := by omega
      rw [← Array.toList_inj, Array.toList_setIfInBounds, toList_overwrite, hz,
        List.set_eq_take_append_cons_drop, if_pos (by rw [Array.length_toList]; omega)]
      simp
    rw [storeFrom, if_neg hbyte, if_pos (by omega)]
    change storeFrom pos (memory.setIfInBounds address (byteOf b)) (address + 1) bs = _
    rw [ih (fun b' h => hbs b' (List.mem_cons_of_mem b h)) _ _
      (by rw [Array.size_setIfInBounds]; omega), hset]
    exact congrArg Except.ok (overwrite_overwrite memory address [byteOf b] _)

theorem store_of_fits (pos : Position) {bs : List Int64} (hbs : ∀ b ∈ bs, IsByte b)
    (memory : Array UInt8) {address : Int64} (hlow : 0 ≤ address.toInt)
    (hhigh : address.toInt + bs.length ≤ 0o200000) :
    store pos memory address bs =
      .ok (overwrite memory address.toInt.toNat (bs.map byteOf)) := by
  have hlast : (address + Int64.ofNat bs.length).toInt = address.toInt + bs.length :=
    Machine.toInt_add_ofNat hlow (by omega)
  have hinside : ¬ (address < 0 ∨
      address + Int64.ofNat bs.length > Int64.ofNat Machine.addressSpace) := by
    rw [Int64.lt_iff_toInt_lt, gt_iff_lt, Int64.lt_iff_toInt_lt, hlast]
    change ¬ (address.toInt < 0 ∨ 0o200000 < address.toInt + bs.length)
    omega
  have hsize : (address + Int64.ofNat bs.length).toNatClampNeg =
      address.toInt.toNat + (bs.map byteOf).length := by
    rw [Int64.toNatClampNeg, hlast, List.length_map]
    omega
  have hfit : address.toNatClampNeg + bs.length ≤
      (growTo (address.toInt.toNat + (bs.map byteOf).length) memory).size := by
    rw [size_growTo, List.length_map, Int64.toNatClampNeg]
    omega
  rw [store, if_neg hinside, hsize, storeFrom_of_fits pos hbs _ _ hfit, Int64.toNatClampNeg]
  unfold overwrite
  rw [growTo_growTo]

end Eleven.Assembly

import Eleven.Proofs.Assembly.Calls
import Mathlib.Data.List.Forall2

/-! The layout of a linked image: every byte is the one that the last store covering its address
put there, and zero where no store reaches. -/
namespace Eleven.Assembly

open Eleven.Files (FileSystem)

/-- The bytes of a store and its address, once they are known. -/
abbrev Entry := List Int64 × Int64

namespace Entry

/-- The byte that a store puts at an address. -/
def byteAt? (e : Entry) (a : Int) : Option Int64 :=
  if a < e.2.toInt then none else e.1[(a - e.2.toInt).toNat]?

/-- The address behind the last byte. -/
def last (e : Entry) : Int := e.2.toInt + e.1.length

end Entry

/-- The address behind the last byte of all stores. -/
def imageEnd (es : List Entry) : Int := (es.map Entry.last).foldl max 0

/-- The byte that stores leave at an address: that of the last one to cover it, or zero. -/
def byteLeft (es : List Entry) (a : Int) : Int64 :=
  (es.reverse.findSome? fun e => e.byteAt? a).getD 0

section Bytes

theorem ofNat_toNat_byteOf {b : Int64} (hb : IsByte b) : Int64.ofNat (byteOf b).toNat = b := by
  obtain ⟨hlow, hhigh⟩ := hb
  have hclamp : (byteOf b).toNat = b.toInt.toNat := by
    rw [byteOf, UInt8.toNat_ofNat', Int64.toNatClampNeg]
    omega
  rw [hclamp, ← Int64.toInt_inj, Int64.toInt_ofNat_of_lt (by omega), Int.toNat_of_nonneg hlow]

/-- Bytes put at an address are found there, and all other places keep what they hold. Beyond the
end of memory there are zeros. -/
theorem getD_overwrite (memory : Array UInt8) (n : Nat) (bs : List UInt8) (a : Nat) :
    (overwrite memory n bs).toList.getD a 0 =
      if n ≤ a ∧ a < n + bs.length then bs.getD (a - n) 0 else memory.toList.getD a 0 := by
  have hfront : (memory.toList.take n ++ List.replicate (n - memory.size) (0 : UInt8)).length =
      n := by
    rw [List.length_append, List.length_take, List.length_replicate, Array.length_toList]
    omega
  rw [toList_overwrite, List.append_assoc, List.getD_eq_getElem?_getD]
  by_cases hbefore : a < n
  · rw [if_neg (by omega), List.getElem?_append_left (by omega), List.getD_eq_getElem?_getD]
    by_cases hold : a < memory.size
    · have htake : a < (memory.toList.take n).length := by
        rw [List.length_take, Array.length_toList]
        omega
      rw [List.getElem?_append_left htake, List.getElem?_take, if_pos hbefore]
    · have htake : (memory.toList.take n).length ≤ a := by
        rw [List.length_take, Array.length_toList]
        omega
      have hbeyond : memory.toList[a]? = none := by
        rw [List.getElem?_eq_none_iff, Array.length_toList]
        omega
      rw [List.getElem?_append_right htake, hbeyond, List.getElem?_replicate]
      split_ifs <;> rfl
  · rw [List.getElem?_append_right (by omega), hfront]
    by_cases hinside : a < n + bs.length
    · rw [if_pos ⟨by omega, hinside⟩, List.getElem?_append_left (by omega),
        List.getD_eq_getElem?_getD]
    · rw [if_neg (by omega), List.getElem?_append_right (by omega), List.getElem?_drop,
        List.getD_eq_getElem?_getD]
      congr 2
      omega

end Bytes

section Stores

variable {pos : Position} {memory memory' : Array UInt8} {address : Int64} {bs : List Int64}

/-- Storing one byte after the other succeeds only with bytes for which there is room. -/
theorem fits_of_storeFrom {n : Nat} (h : storeFrom pos memory n bs = .ok memory') :
    (∀ b ∈ bs, IsByte b) ∧ (bs = [] ∨ n + bs.length ≤ memory.size) := by
  induction bs generalizing memory n with
  | nil => exact ⟨by simp, .inl rfl⟩
  | cons b bs ih =>
    rw [storeFrom] at h
    split_ifs at h with hbyte hroom
    obtain ⟨hrest, hfit⟩ := ih h
    rw [Array.size_setIfInBounds] at hfit
    have hb : IsByte b := isByte_iff.mpr hbyte
    refine ⟨List.forall_mem_cons.mpr ⟨hb, hrest⟩, .inr ?_⟩
    rw [List.length_cons]
    rcases hfit with rfl | hfit
    · rw [List.length_nil]
      omega
    · omega

/-- A store succeeds only inside the address space. The end of the store is computed in 64 bits and
may wrap, but then there is no room for its first byte. -/
theorem store_eq_ok (hsize : memory.size ≤ 0o200000)
    (h : store pos memory address bs = .ok memory') :
    0 ≤ address.toInt ∧ address.toInt + bs.length ≤ 0o200000 ∧ (∀ b ∈ bs, IsByte b) ∧
      memory' = overwrite memory address.toInt.toNat (bs.map byteOf) := by
  have hstore := h
  dsimp only [store] at h
  split_ifs at h with hout
  obtain ⟨hbytes, hfit⟩ := fits_of_storeFrom h
  rw [not_or, Int64.not_lt, Int64.le_iff_toInt_le, gt_iff_lt, Int64.not_lt,
    Int64.le_iff_toInt_le] at hout
  have hlow : 0 ≤ address.toInt := hout.1
  have hlast : (address + Int64.ofNat bs.length).toInt ≤ 0o200000 := hout.2
  have hhigh : address.toInt + bs.length ≤ 0o200000 := by
    rcases hfit with rfl | hfit
    · rw [List.length_nil] at hlast ⊢
      have hzero : address + Int64.ofNat 0 = address := Int64.add_zero address
      rw [hzero] at hlast
      omega
    · rw [size_growTo, Int64.toNatClampNeg, Int64.toNatClampNeg] at hfit
      omega
  rw [store_of_fits pos hbytes memory hlow hhigh] at hstore
  exact ⟨hlow, hhigh, hbytes, (Except.ok.inj hstore).symm⟩

end Stores

/-- Memory that holds what stores leave. -/
structure LaidOut (es : List Entry) (memory : Array UInt8) : Prop where
  low : ∀ e ∈ es, 0 ≤ e.2.toInt
  high : imageEnd es ≤ 0o200000
  size : (memory.size : Int) = imageEnd es
  bytes : ∀ a : Nat, Int64.ofNat (memory.toList.getD a 0).toNat = byteLeft es a

section Layout

variable {es : List Entry} {memory memory' : Array UInt8}

theorem laidOut_nil : LaidOut [] #[] := ⟨by simp, by decide, rfl, fun _ => rfl⟩

theorem imageEnd_concat (es : List Entry) (e : Entry) :
    imageEnd (es ++ [e]) = max (imageEnd es) e.last := by
  rw [imageEnd, List.map_append, List.foldl_append]
  rfl

theorem byteLeft_concat (es : List Entry) (e : Entry) (a : Int) :
    byteLeft (es ++ [e]) a = (e.byteAt? a).getD (byteLeft es a) := by
  rw [byteLeft, List.reverse_append, List.reverse_singleton, List.singleton_append,
    List.findSome?_cons]
  cases e.byteAt? a <;> rfl

theorem byteAt?_eq (e : Entry) (he : 0 ≤ e.2.toInt) (a : Nat) :
    e.byteAt? a = if e.2.toInt.toNat ≤ a then e.1[a - e.2.toInt.toNat]? else none := by
  unfold Entry.byteAt?
  by_cases hbefore : (a : Int) < e.2.toInt
  · rw [if_pos hbefore, if_neg (by omega)]
  · rw [if_neg hbefore, if_pos (by omega)]
    congr 1
    omega

/-- One store more. -/
theorem LaidOut.store (hl : LaidOut es memory) {pos : Position} {e : Entry}
    (h : store pos memory e.2 e.1 = .ok memory') : LaidOut (es ++ [e]) memory' := by
  have hsize := hl.size
  have hhigh := hl.high
  obtain ⟨hlow, hend, hbytes, rfl⟩ := store_eq_ok (by omega) h
  have hlast : e.last ≤ 0o200000 := hend
  refine ⟨?_, ?_, ?_, fun a => ?_⟩
  · exact List.forall_mem_append.mpr ⟨hl.low, List.forall_mem_singleton.mpr hlow⟩
  · rw [imageEnd_concat]
    omega
  · rw [size_overwrite, imageEnd_concat, Entry.last, List.length_map]
    omega
  · rw [getD_overwrite, byteLeft_concat, byteAt?_eq e hlow, List.length_map]
    by_cases hcovered : e.2.toInt.toNat ≤ a ∧ a < e.2.toInt.toNat + e.1.length
    · have hindex : a - e.2.toInt.toNat < e.1.length := by omega
      have hbyte := hbytes _ (List.getElem_mem hindex)
      rw [if_pos hcovered, if_pos hcovered.1, List.getD_eq_getElem?_getD, List.getElem?_map,
        List.getElem?_eq_getElem hindex]
      exact ofNat_toNat_byteOf hbyte
    · have hnone : (if e.2.toInt.toNat ≤ a then e.1[a - e.2.toInt.toNat]? else none) = none := by
        split_ifs with hstart
        · exact List.getElem?_eq_none (by omega)
        · rfl
      rw [if_neg hcovered, hnone]
      exact hl.bytes a

/-- All stores in order. The induction carries what the stores before have left. -/
theorem LaidOut.stored {env : Env} {ws : List Write} (hl : LaidOut es memory)
    (h : stored env memory ws = .ok memory') :
    ∃ es', List.Forall₂ (fun w e => w.resolved env = .ok e) ws es' ∧
      LaidOut (es ++ es') memory' := by
  induction ws generalizing es memory with
  | nil =>
    cases h
    exact ⟨[], .nil, by rwa [List.append_nil]⟩
  | cons w ws ih =>
    obtain ⟨e, he, h⟩ := bind_eq_ok.mp h
    obtain ⟨m, hm, h⟩ := bind_eq_ok.mp h
    obtain ⟨es', hes', hl'⟩ := ih (hl.store hm) h
    refine ⟨e :: es', .cons he hes', ?_⟩
    rwa [List.append_assoc, List.singleton_append] at hl'

end Layout

section Resolving

theorem agree_resolveWrite (w : Write) :
    Agree SymbolTable.Alike (resolveWrite w) (resolveWrite w) := by
  refine Agree.mapFailure _
    ((SymbolTable.agree_eval SymbolTable.stable_alike w.data).bind fun d => ?_)
  refine (Agree.lift (payload d)).bind fun bytes => ?_
  exact (SymbolTable.agree_resolveInt SymbolTable.stable_alike w.address).bind fun address =>
    Agree.lift (.ok _)

theorem agree_resolveLink (link : Lazy) :
    Agree SymbolTable.Alike (resolveLink link) (resolveLink link) := by
  refine ((SymbolTable.agree_resolveInt SymbolTable.stable_alike link).mapFailure _).bind fun n => ?_
  by_cases hn : n < 0
  · simp only [hn, if_true]
    exact Agree.lift (.error _)
  · simp only [hn, if_false]
    exact Agree.lift (.ok n)

theorem nonneg_of_linkAddress {env : Env} {link : Lazy} {n : Int64}
    (h : linkAddress env link = .ok n) : 0 ≤ n.toInt := by
  obtain ⟨m, -, h⟩ := bind_eq_ok.mp h
  split_ifs at h with hneg
  cases h
  rwa [Int64.not_lt, Int64.le_iff_toInt_le] at hneg

end Resolving

/-- The image of a session that links, whatever calls it went through: its stores lie in the address
space, it reaches from the load address to the end of the last of them, and each of its bytes is
the one that the last store covering its address puts there, or zero if there is none. -/
theorem linkImage_layout (fs : FileSystem) (calls : List Call) {image : Image} {s' : Session}
    (h : Session.linkImage.run (.after fs calls) = (.ok image, s')) :
    ∃ es : List Entry,
      List.Forall₂ (fun w e => (resolveWrite w).outcome (Session.after fs calls).symbols = .ok e)
        (Session.after fs calls).writes es ∧
      (resolveLink (Session.after fs calls).link).outcome (Session.after fs calls).symbols =
        .ok image.link ∧
      (∀ e ∈ es, 0 ≤ e.2.toInt) ∧ imageEnd es ≤ 0o200000 ∧
      (image.data.length : Int) = max 0 (imageEnd es - image.link.toInt) ∧
      ∀ (i : Nat) (b : UInt8), image.data[i]? = some b →
        Int64.ofNat b.toNat = byteLeft es (image.link.toInt + i) := by
  have hq := quiet_after fs calls
  obtain ⟨t, memory, hall, hstored, haddress, -, hdata⟩ := linkImage_eq_ok hq h
  obtain ⟨hqt, hg, hsettled⟩ := SymbolTable.settled_of_resolveAll hq hall
  have halike : (Session.after fs calls).symbols.Alike t := ⟨hq, hqt, hg.definitions⟩
  obtain ⟨es, hresolved, hl⟩ := laidOut_nil.stored hstored
  rw [List.nil_append] at hl
  have hnonneg := nonneg_of_linkAddress haddress
  have hsize := hl.size
  refine ⟨es, ?_, ?_, hl.low, hl.high, ?_, fun i b hi => ?_⟩
  · refine hresolved.imp fun w e he => ?_
    rw [(agree_resolveWrite w).outcome_eq halike,
      Attempt.outcome_eq_of_run (run_resolveWrite hsettled w), he]
  · rw [(agree_resolveLink _).outcome_eq halike,
      Attempt.outcome_eq_of_run (run_resolveLink hsettled _), haddress]
  · rw [hdata, List.length_drop, Array.length_toList, Int64.toNatClampNeg]
    omega
  · rw [hdata, List.getElem?_drop] at hi
    have hbyte := hl.bytes (image.link.toNatClampNeg + i)
    rw [List.getD_eq_getElem?_getD, hi] at hbyte
    have hplace : ((image.link.toNatClampNeg + i : Nat) : Int) = image.link.toInt + i := by
      rw [Int64.toNatClampNeg]
      omega
    rwa [hplace] at hbyte

/-- Stores behind the load address and before it, the second one over a part of the first. -/
def overlappingStores : List Call :=
  [.setProject true, .setLink 2,
    .addSource "a" ".LINK 4\n.BYTE 1, 2, 3\n.LINK 5\n.BYTE 7\n.LINK 0\n.BYTE 9\n"]

theorem linkImage_layout_overlapping :
    ∃ image s', Session.linkImage.run (.after noFiles overlappingStores) = (.ok image, s') ∧
      image.data = [0, 0, 1, 7, 3] ∧ ∃ es : List Entry,
        List.Forall₂ (fun w e => (resolveWrite w).outcome
          (Session.after noFiles overlappingStores).symbols = .ok e)
          (Session.after noFiles overlappingStores).writes es ∧
        imageEnd es = 7 ∧ byteLeft es 5 = 7 := by
  have hlinked : (Session.linkImage.outcome (.after noFiles overlappingStores)).toOption.map
      (fun image => (image.data, image.link)) = some ([0, 0, 1, 7, 3], 2) := by decide +kernel
  obtain ⟨image, hrun, himage⟩ := run_of_outcome hlinked
  obtain ⟨hdata, hlink⟩ := Prod.mk.inj himage
  obtain ⟨es, hresolved, -, -, -, hlength, hbytes⟩ :=
    linkImage_layout noFiles overlappingStores hrun
  refine ⟨image, _, hrun, hdata, es, hresolved, ?_, ?_⟩
  · rw [hdata, hlink] at hlength
    change (5 : Int) = max 0 (imageEnd es - 2) at hlength
    omega
  · have hbyte := hbytes 3 7 (by rw [hdata]; rfl)
    rw [hlink] at hbyte
    exact hbyte.symm

end Eleven.Assembly

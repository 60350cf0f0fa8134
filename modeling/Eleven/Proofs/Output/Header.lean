import Eleven.Proofs.Machine.Field
import Eleven.Proofs.Machine.Word
import Eleven.Tools.Disassembler

/-! Files with a header. What is written in front of an image is what the disassembler looks for: the
address and the length come back, and so does the file. -/
namespace Eleven.Output

open Eleven.Machine (bytesOfWord unsignedWord wordOfBytes wrapAddress)
open Eleven.Tools.Disassembler (image?)

/-- A number of sixteen bits as two bytes, the low one first. -/
def lowFirst (n : Nat) : List UInt8 := [UInt8.ofNat (n % 256), UInt8.ofNat (n / 256)]

/-- What a header has room for. -/
def FitsHeader (link : Int64) (size : Nat) : Prop :=
  0 ≤ link.toInt ∧ link.toInt ≤ 0xFFFF ∧ size ≤ 0xFFFF

section Writing

variable {link : Int64} {size : Nat} {data file : List UInt8}

theorem bytesOfWord_eq_lowFirst (w : UInt16) : bytesOfWord w = lowFirst w.toNat := by
  have hw := w.toNat_lt
  have hlow : w.toUInt8 = UInt8.ofNat (w.toNat % 256) := by
    rw [← UInt8.toNat_inj, UInt16.toNat_toUInt8, UInt8.toNat_ofNat']
    omega
  have hhigh : (w >>> 8).toUInt8 = UInt8.ofNat (w.toNat / 256) := by
    rw [← UInt8.toNat_inj, UInt16.toNat_toUInt8, UInt8.toNat_ofNat',
      Machine.toNat_shiftRight_of_lt (by decide)]
    rfl
  rw [bytesOfWord, lowFirst, hlow, hhigh]

theorem FitsHeader.unsignedWord_link (h : FitsHeader link size) :
    unsignedWord (wrapAddress link) = link :=
  Machine.unsignedWord_wrapAddress h.1 (Int.lt_add_one_of_le h.2.1)

theorem FitsHeader.toNat_size (h : FitsHeader link size) : (UInt16.ofNat size).toNat = size :=
  UInt16.toNat_ofNat_of_lt (Nat.lt_succ_of_le h.2.2)

theorem FitsHeader.header_eq (h : FitsHeader link size) :
    header link size = lowFirst link.toInt.toNat ++ lowFirst size := by
  have hlink : (wrapAddress link).toNat = link.toInt.toNat := by
    have hint := Machine.toInt_unsignedWord (wrapAddress link)
    rw [h.unsignedWord_link] at hint
    omega
  rw [header, bytesOfWord_eq_lowFirst, bytesOfWord_eq_lowFirst, hlink, h.toNat_size]

/-- Writing succeeds exactly where address and length fit. -/
theorem encode_bin_eq_ok :
    encode .bin link data = .ok file ↔
      FitsHeader link data.length ∧ file = header link data.length ++ data := by
  have hlink : (link < 0 ∨ link > 0xFFFF) ↔ (link.toInt < 0 ∨ 0xFFFF < link.toInt) := by
    rw [gt_iff_lt, Int64.lt_iff_toInt_lt, Int64.lt_iff_toInt_lt]
    rfl
  unfold encode FitsHeader
  dsimp only
  by_cases hrange : link < 0 ∨ link > 0xFFFF
  · rw [if_pos hrange]
    rw [hlink] at hrange
    constructor
    · intro h
      cases h
    · rintro ⟨⟨hlow, hhigh, -⟩, -⟩
      omega
  · rw [if_neg hrange]
    rw [hlink, not_or, Int.not_lt, Int.not_lt] at hrange
    by_cases hsize : data.length > 0xFFFF
    · rw [if_pos hsize]
      constructor
      · intro h
        cases h
      · rintro ⟨⟨-, -, hsize'⟩, -⟩
        omega
    · rw [if_neg hsize, Except.ok.injEq, eq_comm]
      exact (and_iff_right ⟨hrange.1, hrange.2, Nat.not_lt.mp hsize⟩).symm

end Writing

section Reading

/-- The header that was written is found again, whatever follows it. -/
theorem readHeader?_header {link : Int64} {size : Nat} (h : FitsHeader link size)
    (rest : List UInt8) : readHeader? (header link size ++ rest) = some (link, rest.take size) := by
  change some (unsignedWord (wordOfBytes (wrapAddress link).toUInt8 (wrapAddress link >>> 8).toUInt8),
    rest.take (wordOfBytes (UInt16.ofNat size).toUInt8 (UInt16.ofNat size >>> 8).toUInt8).toNat) = _
  rw [Machine.wordOfBytes_bytesOfWord, Machine.wordOfBytes_bytesOfWord, h.unsignedWord_link,
    h.toNat_size]

/-- Four bytes are the header of what they tell. -/
theorem header_wordOfBytes (a b c d : UInt8) :
    header (unsignedWord (wordOfBytes a b)) (wordOfBytes c d).toNat = [a, b, c, d] := by
  rw [header, Machine.wrapAddress_unsignedWord, UInt16.ofNat_toNat,
    Machine.bytesOfWord_wordOfBytes, Machine.bytesOfWord_wordOfBytes]
  rfl

theorem fitsHeader_wordOfBytes (a b c d : UInt8) :
    FitsHeader (unsignedWord (wordOfBytes a b)) (wordOfBytes c d).toNat := by
  have hlink := (wordOfBytes a b).toNat_lt
  have hsize := (wordOfBytes c d).toNat_lt
  rw [FitsHeader, Machine.toInt_unsignedWord]
  omega

end Reading

/-- A file with a header can be written exactly if the load address and the number of bytes are
numbers of sixteen bits; these then stand in front of the image. The disassembler, told that there is
a header, finds the address and the image again, whatever follows them and whichever base it is given
besides. A file whose length tells the number of bytes behind the header is the one that is written
for what the disassembler finds in it. -/
theorem header_round_trip (link : Int64) (data : List UInt8) (given : Int64) :
    ((∃ file, encode .bin link data = .ok file) ↔
      0 ≤ link.toInt ∧ link.toInt ≤ 0xFFFF ∧ data.length ≤ 0xFFFF) ∧
    (∀ file, encode .bin link data = .ok file →
      file = lowFirst link.toInt.toNat ++ lowFirst data.length ++ data ∧
        ∀ extra, image? true given (file ++ extra) = some (link, data)) ∧
    ∀ (a b c d : UInt8) (rest : List UInt8), c.toNat + 256 * d.toNat = rest.length →
      ∃ base code, image? true given (a :: b :: c :: d :: rest) = some (base, code) ∧
        encode .bin base code = .ok (a :: b :: c :: d :: rest) := by
  refine ⟨?_, ?_, ?_⟩
  · constructor
    · rintro ⟨file, hfile⟩
      exact (encode_bin_eq_ok.mp hfile).1
    · intro hfits
      exact ⟨_, encode_bin_eq_ok.mpr ⟨hfits, rfl⟩⟩
  · intro file hfile
    obtain ⟨hfits, rfl⟩ := encode_bin_eq_ok.mp hfile
    refine ⟨by rw [hfits.header_eq], fun extra => ?_⟩
    change readHeader? (header link data.length ++ data ++ extra) = _
    rw [List.append_assoc, readHeader?_header hfits, List.take_left]
  · intro a b c d rest hlength
    have hsize : (wordOfBytes c d).toNat = rest.length := by
      rw [Machine.toNat_wordOfBytes, ← hlength]
      omega
    have hfits := fitsHeader_wordOfBytes a b c d
    have hheader := header_wordOfBytes a b c d
    rw [hsize] at hfits hheader
    have hread := readHeader?_header hfits rest
    rw [hheader, List.take_length] at hread
    refine ⟨_, rest, hread, encode_bin_eq_ok.mpr ⟨hfits, ?_⟩⟩
    rw [hheader]
    rfl

/-- The last address there is, an image of two bytes, and one byte more in the file. -/
theorem header_round_trip_lastAddress :
    encode .bin 0xFFFF [1, 2] = .ok [0xFF, 0xFF, 2, 0, 1, 2] ∧
      image? true 0o1000 ([0xFF, 0xFF, 2, 0, 1, 2] ++ [3]) = some (0xFFFF, [1, 2]) := by
  have hfile : encode .bin 0xFFFF [1, 2] = .ok [0xFF, 0xFF, 2, 0, 1, 2] := rfl
  exact ⟨hfile, ((header_round_trip 0xFFFF [1, 2] 0o1000).2.1 _ hfile).2 [3]⟩

end Eleven.Output

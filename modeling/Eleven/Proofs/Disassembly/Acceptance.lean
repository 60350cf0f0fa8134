import Eleven.Proofs.Disassembly.Coverage
import Eleven.Proofs.Disassembly.Labelling
import Mathlib.Algebra.Group.Int.Defs
import Mathlib.Algebra.Group.Nat.Defs

/-! Which images are disassembled. The check of the base computes the end of the image in 64 bits,
so it is right as long as that end does not wrap. An image that wraps is accepted, and its source
text shows none of its bytes. -/
namespace Eleven.Disassembly

open Eleven.Machine (wordsToBytes)

/-- An image of a size lies in the address space, from an even address on. -/
def LiesInside (base : Int64) (size : Nat) : Prop :=
  0 ≤ base.toInt ∧ base.toInt % 2 = 0 ∧ base.toInt + size ≤ 0o200000

/-- The end of the image is no 64-bit number. -/
def EndWraps (base : Int64) (size : Nat) : Prop := 2 ^ 63 ≤ base.toInt + size

instance (base : Int64) (size : Nat) : Decidable (LiesInside base size) :=
  inferInstanceAs (Decidable (_ ∧ _))

instance (base : Int64) (size : Nat) : Decidable (EndWraps base size) :=
  inferInstanceAs (Decidable (2 ^ 63 ≤ base.toInt + size))

/-- The bytes that a segment stands for. -/
def Segment.bytes : Segment → List UInt8
  | .code l => wordsToBytes l.words
  | .data _ bytes => bytes

section Check

variable {base : Int64} {size : Nat} {code : List UInt8}

theorem isValidBase_iff_liesInside (h : ¬ EndWraps base size) :
    isValidBase base size = true ↔ LiesInside base size := by
  rw [isValidBase_iff, LiesInside]
  refine and_congr_right fun hlow => and_congr_right fun _ => ?_
  rw [Machine.toInt_add_ofNat hlow (Int.not_le.mp h)]
  rfl

/-- An end that wraps looks negative, so it passes the check. -/
theorem isValidBase_iff_even (hsize : size < 2 ^ 63) (h : EndWraps base size) :
    isValidBase base size = true ↔ base.toInt % 2 = 0 := by
  have hhigh : base.toInt < 2 ^ 63 := base.toInt_lt
  have hend : 2 ^ 63 ≤ base.toInt + size := h
  have hspace : (Machine.addressSpace : Int) = 0o200000 := rfl
  rw [isValidBase_iff, Machine.toInt_add_ofNat_of_wraps hsize h, hspace]
  omega

theorem exists_disassemble_iff :
    (∃ lines, disassemble code base = .ok lines) ↔ isValidBase base code.length = true := by
  simp only [disassemble_eq_ok, exists_and_left, exists_eq, and_true]

theorem exists_sourceText_iff :
    (∃ text, sourceText code base = .ok text) ↔ isValidBase base code.length = true := by
  unfold sourceText
  split_ifs with hvalid <;> simp [hvalid]

theorem Tiles.flatMap_bytes {n : Nat} {segments : List Segment} (h : Tiles n segments code) :
    segments.flatMap Segment.bytes = code := by
  induction h with
  | nil => rfl
  | code _ _ _ ih => rw [List.flatMap_cons, ih, Segment.bytes]
  | data _ _ ih => rw [List.flatMap_cons, ih, Segment.bytes]

/-- Every line of an image in the address space stands there too. -/
theorem address_inside (hinside : LiesInside base code.length) {lines : List Line}
    (h : Tiled base lines code) {l : Line} (hl : l ∈ lines) :
    0 ≤ l.address.toInt ∧ l.address.toInt < 0o200000 := by
  obtain ⟨hlow, -, hhigh⟩ := hinside
  obtain ⟨i, hi⟩ := List.mem_iff_getElem?.mp hl
  have hshows := h.shows hi
  have hpos := hshows.length_drop_lt
  rw [List.length_drop, List.length_drop] at hpos
  rw [hshows.address, Machine.toInt_add_ofNat hlow (by omega)]
  omega

/-- An image that wraps has no segments. -/
theorem sourceText_of_wraps (hsize : code.length < 2 ^ 63) (h : EndWraps base code.length)
    (heven : base.toInt % 2 = 0) :
    sourceText code base = .ok ("\t.LINK " ++ Text.bareOctal base ++ "\n") := by
  have hhigh : base.toInt < 2 ^ 63 := base.toInt_lt
  have hend : 2 ^ 63 ≤ base.toInt + code.length := h
  have hne : ¬ code.isEmpty = true := by
    intro hempty
    rw [List.isEmpty_iff.mp hempty, List.length_nil] at hend
    omega
  have hnone : ¬ base < base + Int64.ofNat code.length := by
    rw [Int64.lt_iff_toInt_lt, Machine.toInt_add_ofNat_of_wraps hsize h]
    omega
  rw [sourceText, if_pos ((isValidBase_iff_even hsize h).mpr heven), if_neg hne]
  dsimp only
  rw [segmentsOf, if_neg hnone, List.map_nil, String.join_nil, String.append_empty]

end Check

/-- What the text of an accepted image is made of. -/
theorem sourceText_eq {code : List UInt8} {base : Int64} (h : isValidBase base code.length = true) :
    ∃ labels, sourceText code base = .ok (if code.isEmpty then "" else "\t.LINK " ++
      Text.bareOctal base ++ "\n" ++ String.join
        ((segmentsOf base code (reachedLines base code)).map (segmentText labels))) := by
  constructor
  rw [sourceText, if_pos h]
  split_ifs <;> rfl

/-- Images are accepted exactly if they lie in the address space, as long as their end does not wrap.
The lines of an image in the address space stand there, and its source text shows every byte. An
image whose end wraps is accepted at every even base, and its source text has no bytes at all. -/
theorem accepted_iff (code : List UInt8) (base : Int64) (hsize : code.length < 2 ^ 63) :
    (¬ EndWraps base code.length →
      ((∃ lines, disassemble code base = .ok lines) ↔ LiesInside base code.length) ∧
      ((∃ text, sourceText code base = .ok text) ↔ LiesInside base code.length)) ∧
    (LiesInside base code.length →
      (∀ lines, disassemble code base = .ok lines →
        ∀ l ∈ lines, 0 ≤ l.address.toInt ∧ l.address.toInt < 0o200000) ∧
      ∃ (segments : List Segment) (labels : Labels), segments.flatMap Segment.bytes = code ∧
        sourceText code base = .ok (if code.isEmpty then "" else "\t.LINK " ++ Text.bareOctal base ++
          "\n" ++ String.join (segments.map (segmentText labels)))) ∧
    (EndWraps base code.length →
      ((∃ lines, disassemble code base = .ok lines) ↔ base.toInt % 2 = 0) ∧
      (base.toInt % 2 = 0 →
        sourceText code base = .ok ("\t.LINK " ++ Text.bareOctal base ++ "\n"))) := by
  rw [exists_disassemble_iff, exists_sourceText_iff]
  constructor
  · intro hend
    exact ⟨isValidBase_iff_liesInside hend, isValidBase_iff_liesInside hend⟩
  constructor
  · intro hinside
    have hlow : 0 ≤ base.toInt := hinside.1
    have hhigh : base.toInt + code.length ≤ 0o200000 := hinside.2.2
    have hvalid : isValidBase base code.length = true := by
      rw [isValidBase_iff_liesInside]
      · exact hinside
      · unfold EndWraps
        omega
    constructor
    · intro lines hlines l hl
      obtain ⟨-, rfl⟩ := disassemble_eq_ok.mp hlines
      exact address_inside hinside (tiled_sweep (Nat.le_refl _)) hl
    · obtain ⟨labels, htext⟩ := sourceText_eq hvalid
      have htiles := @tiles_segmentsOf base.toInt.toNat code (by omega)
      rw [Machine.ofNat_toNat_toInt hlow] at htiles
      exact ⟨_, labels, htiles.flatMap_bytes, htext⟩
  · intro hwraps
    exact ⟨isValidBase_iff_even hsize hwraps, sourceText_of_wraps hsize hwraps⟩

theorem accepted_iff_loop : (∃ lines, disassemble loopImage 0 = .ok lines) ∧
    ∃ (segments : List Segment) (labels : Labels), segments.flatMap Segment.bytes = loopImage ∧
      sourceText loopImage 0 =
        .ok ("\t.LINK 0\n" ++ String.join (segments.map (segmentText labels))) := by
  obtain ⟨haccepted, hinside, -⟩ := accepted_iff loopImage 0 (by decide)
  have hlies : LiesInside 0 loopImage.length := by decide
  exact ⟨(haccepted (by decide)).1.mpr hlies, (hinside hlies).2⟩

/-- A word at the last even address is accepted, and its source text does not show it. -/
theorem accepted_at_last_address : ¬ LiesInside 0x7FFFFFFFFFFFFFFE 2 ∧
    (∃ lines, disassemble [0, 0] 0x7FFFFFFFFFFFFFFE = .ok lines ∧
      ∃ l ∈ lines, ¬ l.address.toInt < 0o200000) ∧
    sourceText [0, 0] 0x7FFFFFFFFFFFFFFE = .ok "\t.LINK 777777777777777777776\n" := by
  have hwraps : EndWraps 0x7FFFFFFFFFFFFFFE ([0, 0] : List UInt8).length := by decide
  have hlines : disassemble [0, 0] 0x7FFFFFFFFFFFFFFE =
      .ok (sweep 2 0x7FFFFFFFFFFFFFFE [0, 0]) := rfl
  have hsize : ([0, 0] : List UInt8).length < 2 ^ 63 := by decide
  have htext := sourceText_of_wraps hsize hwraps (by decide)
  have hoctal : "\t.LINK " ++ Text.bareOctal 0x7FFFFFFFFFFFFFFE ++ "\n" =
      "\t.LINK 777777777777777777776\n" := by decide +kernel
  rw [hoctal] at htext
  refine ⟨by decide, ⟨_, hlines, ?_⟩, htext⟩
  decide +kernel

end Eleven.Disassembly

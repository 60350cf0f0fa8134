import Eleven.Disassembly.Listing
import Eleven.Proofs.Disassembly.Pieces
import Mathlib.Algebra.GroupWithZero.Nat

/-! The lines of a linear sweep tile the image: no byte is left out and none is shown twice. -/
namespace Eleven.Disassembly

open Eleven.Machine (Instruction OperandClass bytesOfWord wordOfBytes wordsToBytes)

/-- The fields of a first word that hold a mode and a register, in the order in which their operands
take words. -/
def operandFields (k : OperandClass) (w : UInt16) : List UInt16 :=
  match k with
  | .one => [w &&& 0o77]
  | .two => [(w >>> 6) &&& 0o77, w &&& 0o77]
  | .register => [w &&& 0o77]
  | .registerSource => [w &&& 0o77]
  | _ => []

def fieldTakesWord (field : UInt16) : Bool :=
  (Machine.fieldMode field).hasExtraWord (Machine.fieldRegister field)

/-- The number of words that an instruction takes behind its first one. -/
def extraCount (i : Instruction) (w : UInt16) : Nat :=
  (operandFields i.kind w).countP fieldTakesWord

section Words

variable {α β : Type} {c : Cursor} {n m : Nat}

/-- A step of the decoder takes a number of words, and fails just if they are not all there. -/
structure TakesWords (n : Nat) (c : Cursor) (r : Option (α × Cursor)) : Prop where
  took : ∀ {a c'}, r = some (a, c') → ∃ xs, xs.length = n ∧ Took c xs c'
  short : r = none → c.rest.length < 2 * n

theorem takesWords_some (a : α) (c : Cursor) : TakesWords 0 c (some (a, c)) where
  took h := by
    cases h
    exact ⟨[], rfl, .refl c⟩
  short h := by cases h

theorem TakesWords.bind {r : Option (α × Cursor)} {f : α × Cursor → Option (β × Cursor)}
    (h : TakesWords n c r) (hf : ∀ x, TakesWords m x.2 (f x)) :
    TakesWords (n + m) c (r >>= f) := by
  cases hr : r with
  | none =>
    have hshort := h.short hr
    exact ⟨fun h => (Option.some_ne_none _ h.symm).elim, fun _ => by omega⟩
  | some x =>
    obtain ⟨xs, hn, htook⟩ := h.took hr
    refine ⟨fun hb => ?_, fun hb => ?_⟩
    · obtain ⟨ys, hm, htook'⟩ := (hf x).took hb
      exact ⟨xs ++ ys, by rw [List.length_append, hn, hm], htook.trans htook'⟩
    · have hshort := (hf x).short hb
      rw [htook.rest, List.length_append, length_wordsToBytes]
      omega

theorem TakesWords.map {r : Option (α × Cursor)} (h : TakesWords n c r) (g : α → Cursor → β) :
    TakesWords n c (r >>= fun x => some (g x.1 x.2, x.2)) :=
  h.bind fun x => takesWords_some (g x.1 x.2) x.2

theorem takesWords_next (c : Cursor) : TakesWords 1 c c.next? := by
  refine ⟨fun h => ⟨_, rfl, took_next h⟩, fun h => ?_⟩
  unfold Cursor.next? at h
  split at h
  · cases h
  · rename_i hrest
    match hc : c.rest with
    | [] => simp
    | [_] => simp
    | low :: high :: rest => exact absurd hc (hrest low high rest)

theorem takesWords_operandArg (field : UInt16) (c : Cursor) :
    TakesWords ([field].countP fieldTakesWord) c (operandArg field c) := by
  unfold operandArg
  rw [List.countP_singleton]
  unfold fieldTakesWord
  dsimp only
  split_ifs with hx
  · exact (takesWords_next c).map fun x c' => extraArg _ _ x c'.address
  · exact takesWords_some _ c

/-- Instructions of the table have a class. -/
theorem kind_ne_unassigned {i : Instruction} (hi : i ∈ Instruction.table) (code : Int64) :
    i.kind ≠ .unassigned code := by
  have h : ∀ i ∈ Instruction.table, i.kind ∈ OperandClass.assigned := by decide
  intro hk
  have hmem := h i hi
  rw [hk] at hmem
  simp [OperandClass.assigned] at hmem

/-- Decoding operands takes the words that their fields call for. -/
theorem takesWords_decodeArgs {i : Instruction} (hi : i ∈ Instruction.table) (w : UInt16)
    (c : Cursor) : TakesWords (extraCount i w) c (decodeArgs i w c) := by
  have hfield := takesWords_operandArg (w &&& 0o77)
  unfold extraCount decodeArgs operandFields
  cases hk : i.kind with
  | one => exact (hfield c).map fun d _ => [d]
  | two =>
    have hboth := (takesWords_operandArg ((w >>> 6) &&& 0o77) c).bind
      fun s => (hfield s.2).map fun d _ => [s.1, d]
    rwa [← List.countP_append] at hboth
  | register => exact (hfield c).map fun d _ => [.register ⟨(w >>> 6) &&& 7⟩, d]
  | registerSource => exact (hfield c).map fun s _ => [s, .register ⟨(w >>> 6) &&& 7⟩]
  | unassigned code => exact absurd hk (kind_ne_unassigned hi code)
  | _ => exact takesWords_some _ c

end Words

namespace Line

/-- The bytes that the line covers. -/
def bytes (l : Line) : List UInt8 := wordsToBytes l.words ++ l.trailing

theorem length_bytes (l : Line) : l.bytes.length = l.size := by
  rw [bytes, List.length_append, length_wordsToBytes, size]

end Line

/-- What a line makes of the bytes from its address on. -/
inductive Shows (a : Int64) : Line → List UInt8 → Prop
  /-- An instruction covers its first word and one word for each operand that takes one. -/
  | instruction {i : Instruction} {w : UInt16} {xs : List UInt16} {args : List Arg}
    {behind : List UInt8} (hi : Instruction.ofWord? w = some i) (hxs : xs.length = extraCount i w) :
    Shows a ⟨a, w :: xs, .instruction i args⟩ (wordsToBytes (w :: xs) ++ behind)
  /-- An instruction that would run past the end is one word of data. -/
  | cut {i : Instruction} {w : UInt16} {behind : List UInt8} (hi : Instruction.ofWord? w = some i)
    (hshort : behind.length < 2 * extraCount i w) :
    Shows a ⟨a, [w], .word w⟩ (wordsToBytes [w] ++ behind)
  | unknown {w : UInt16} {behind : List UInt8} (hi : Instruction.ofWord? w = none) :
    Shows a ⟨a, [w], .word w⟩ (wordsToBytes [w] ++ behind)
  | last (b : UInt8) : Shows a ⟨a, [], .byte b⟩ [b]

theorem shows_decode (a : Int64) (w : UInt16) (rest : List UInt8) :
    Shows a (Line.decode a w rest) (wordsToBytes [w] ++ rest) := by
  unfold Line.decode
  split
  · rename_i hi
    exact .unknown hi
  · rename_i i hi
    have htakes := takesWords_decodeArgs (Instruction.ofWord?_eq_some hi).1 w ⟨a + 2, rest, [w]⟩
    split
    · rename_i hargs
      exact .cut hi (htakes.short hargs)
    · rename_i args c hargs
      obtain ⟨xs, hxs, htook⟩ := htakes.took hargs
      have hwords : c.taken.reverse = w :: xs := by
        rw [htook.taken, List.reverse_append, List.reverse_reverse]
        rfl
      have hbytes : wordsToBytes [w] ++ rest = wordsToBytes (w :: xs) ++ c.rest := by
        rw [show rest = wordsToBytes xs ++ c.rest from htook.rest, ← List.append_assoc]
        rfl
      rw [hwords, hbytes]
      exact .instruction hi hxs

theorem shows_decode_bytes (a : Int64) (low high : UInt8) (rest : List UInt8) :
    Shows a (Line.decode a (wordOfBytes low high) rest) (low :: high :: rest) := by
  have hword : wordsToBytes [wordOfBytes low high] ++ rest = low :: high :: rest := by
    rw [wordsToBytes, List.flatMap_singleton, Machine.bytesOfWord_wordOfBytes]
    rfl
  have hshows := shows_decode a (wordOfBytes low high) rest
  rwa [hword] at hshows

section Shows

variable {a : Int64} {l : Line} {bytes : List UInt8}

theorem Shows.address (h : Shows a l bytes) : l.address = a := by
  cases h <;> rfl

theorem Shows.size_pos (h : Shows a l bytes) : 0 < l.size := by
  cases h <;> simp [Line.size, Line.trailing]

theorem Shows.bytes_eq (h : Shows a l bytes) : bytes = l.bytes ++ bytes.drop l.size := by
  have hfront : ∃ behind, bytes = l.bytes ++ behind := by
    cases h with
    | @instruction i w xs args behind => exact ⟨behind, by rw [Line.bytes]; simp [Line.trailing]⟩
    | @cut i w behind => exact ⟨behind, by rw [Line.bytes]; simp [Line.trailing]⟩
    | @unknown w behind => exact ⟨behind, by rw [Line.bytes]; simp [Line.trailing]⟩
    | last b => exact ⟨[], by rw [Line.bytes]; rfl⟩
  obtain ⟨behind, rfl⟩ := hfront
  rw [← Line.length_bytes, List.drop_left]

theorem Shows.trailing (h : Shows a l bytes) (hbytes : 2 ≤ bytes.length) : l.trailing = [] := by
  cases h with
  | last b => simp at hbytes
  | _ => rfl

theorem Shows.two_le_size (h : Shows a l bytes) (hbytes : 2 ≤ bytes.length) : 2 ≤ l.size := by
  cases h with
  | last b => simp at hbytes
  | _ =>
    simp only [Line.size, List.length_cons]
    omega

end Shows

/-- Lines one behind the other, from an address on, that show all bytes. -/
inductive Tiled : Int64 → List Line → List UInt8 → Prop
  | nil (a : Int64) : Tiled a [] []
  | cons {a : Int64} {l : Line} {lines : List Line} {bytes : List UInt8} (hl : Shows a l bytes)
    (htail : Tiled (a + Int64.ofNat l.size) lines (bytes.drop l.size)) : Tiled a (l :: lines) bytes

/-- The number of bytes before a line. -/
def offset (lines : List Line) (i : Nat) : Nat := ((lines.take i).map Line.size).sum

section Sweep

variable {a : Int64} {lines : List Line} {code : List UInt8} {room room' : Nat}

/-- One step of the sweep. What is left is cut off behind the line. -/
theorem sweep_step (a : Int64) (low high : UInt8) (rest : List UInt8) :
    ∃ l, Shows a l (low :: high :: rest) ∧ ∀ room, sweep (room + 1) a (low :: high :: rest) =
      l :: sweep room (a + Int64.ofNat l.size) ((low :: high :: rest).drop l.size) := by
  have hshows := shows_decode_bytes a low high rest
  have htwo : 2 ≤ (Line.decode a (wordOfBytes low high) rest).size :=
    hshows.two_le_size (by simp)
  obtain ⟨k, hk⟩ := Nat.exists_eq_add_of_le' htwo
  refine ⟨_, hshows, fun room => ?_⟩
  rw [sweep, hk]
  rfl

theorem Shows.length_drop_lt {l : Line} (h : Shows a l code) :
    (code.drop l.size).length < code.length := by
  have hpos := h.size_pos
  have hlength := congrArg List.length h.bytes_eq
  rw [List.length_append, Line.length_bytes] at hlength
  omega

theorem tiled_sweep (hroom : code.length ≤ room) : Tiled a (sweep room a code) code := by
  induction room generalizing a code with
  | zero =>
    obtain rfl : code = [] := List.length_eq_zero_iff.mp (by omega)
    exact .nil a
  | succ room ih =>
    match code with
    | [] => exact .nil a
    | [b] => exact .cons (.last b) (.nil _)
    | low :: high :: rest =>
      obtain ⟨l, hl, hsweep⟩ := sweep_step a low high rest
      have hshorter := hl.length_drop_lt
      rw [hsweep]
      exact .cons hl (ih (by omega))

/-- The sweep has come to its end once it has as much room as there are bytes. -/
theorem sweep_of_room (hroom : code.length ≤ room) (hroom' : code.length ≤ room') :
    sweep room a code = sweep room' a code := by
  induction room generalizing room' a code with
  | zero =>
    obtain rfl : code = [] := List.length_eq_zero_iff.mp (by omega)
    cases room' <;> rfl
  | succ room ih =>
    match code with
    | [] => cases room' <;> rfl
    | [b] => cases room' <;> rfl
    | low :: high :: rest =>
      obtain ⟨room', rfl⟩ : ∃ k, room' = k + 1 := ⟨room' - 1, by simp at hroom'; omega⟩
      obtain ⟨l, hl, hsweep⟩ := sweep_step a low high rest
      have hshorter := hl.length_drop_lt
      have htail := @ih (a + Int64.ofNat l.size) ((low :: high :: rest).drop l.size) room'
        (by omega) (by omega)
      rw [hsweep, hsweep, htail]

theorem Tiled.flatMap_bytes (h : Tiled a lines code) : lines.flatMap Line.bytes = code := by
  induction h with
  | nil => rfl
  | cons hl _ ih => rw [List.flatMap_cons, ih, ← hl.bytes_eq]

theorem Tiled.sum_size (h : Tiled a lines code) : (lines.map Line.size).sum = code.length := by
  rw [← h.flatMap_bytes, List.length_flatMap]
  simp only [Line.length_bytes]

/-- The line with a number shows the bytes behind those of the lines before it. -/
theorem Tiled.shows (h : Tiled a lines code) {i : Nat} {l : Line} (hi : lines[i]? = some l) :
    Shows (a + Int64.ofNat (offset lines i)) l (code.drop (offset lines i)) := by
  induction h generalizing i with
  | nil => simp at hi
  | @cons a first lines bytes hfirst _ ih =>
    cases i with
    | zero =>
      obtain rfl : first = l := by simpa using hi
      simpa [offset] using hfirst
    | succ i =>
      have hoffset : offset (first :: lines) (i + 1) = first.size + offset lines i := by
        simp [offset]
      have hrest := ih (by simpa using hi)
      rwa [List.drop_drop, Int64.add_assoc, ← Int64.ofNat_add, ← hoffset] at hrest

end Sweep

/-- The check of a base. The end of the image is computed in 64 bits. -/
theorem isValidBase_iff {base : Int64} {size : Nat} :
    isValidBase base size = true ↔ 0 ≤ base.toInt ∧ base.toInt % 2 = 0 ∧
      (base + Int64.ofNat size).toInt ≤ Machine.addressSpace := by
  have hlow : ¬ base < 0 ↔ 0 ≤ base.toInt := by
    rw [Int64.not_lt, Int64.le_iff_toInt_le]
    rfl
  have heven : base % 2 = 0 ↔ base.toInt.tmod 2 = 0 := by
    rw [← Int64.toInt_inj, Int64.toInt_mod]
    rfl
  have hend : ¬ base + Int64.ofNat size > Int64.ofNat Machine.addressSpace ↔
      (base + Int64.ofNat size).toInt ≤ Machine.addressSpace := by
    rw [gt_iff_lt, Int64.not_lt, Int64.le_iff_toInt_le]
    rfl
  rw [isValidBase, Bool.not_eq_true', ← Bool.not_eq_true, Bool.or_eq_true, Bool.or_eq_true, not_or,
    not_or, decide_eq_true_eq, decide_eq_true_eq, bne_iff_ne, not_not, hlow, heven, hend, and_assoc]
  exact and_congr_right fun h => by rw [Int.tmod_eq_emod_of_nonneg h]

theorem disassemble_eq_ok {code : List UInt8} {base : Int64} {lines : List Line} :
    disassemble code base = .ok lines ↔
      isValidBase base code.length = true ∧ lines = sweep code.length base code := by
  unfold disassemble
  split_ifs with hvalid
  · simp [hvalid, eq_comm]
  · simp [hvalid]

/-- The lines of an image tile it. The sweep ends by itself, each line stands behind the lines before
it, and together they cover every byte once. Each line is what its bytes call for: an instruction
has its first word and one word for each operand that takes one, and a word whose instruction would
run past the end is data and covers nothing else. Addresses are computed in 64 bits, and are the
sums they should be as long as the image does not wrap. -/
theorem disassemble_tiles (code : List UInt8) (base : Int64) (lines : List Line)
    (h : disassemble code base = .ok lines) :
    (∀ room, code.length ≤ room → sweep room base code = lines) ∧
    (lines.map Line.size).sum = code.length ∧
    lines.flatMap (fun l => wordsToBytes l.words ++ l.trailing) = code ∧
    ∀ i l, lines[i]? = some l →
      l.address = base + Int64.ofNat (offset lines i) ∧
      (base.toInt + code.length < 2 ^ 63 → l.address.toInt = base.toInt + offset lines i) ∧
      Shows l.address l (code.drop (offset lines i)) := by
  obtain ⟨hvalid, rfl⟩ := disassemble_eq_ok.mp h
  have htiled : Tiled base (sweep code.length base code) code := tiled_sweep (Nat.le_refl _)
  refine ⟨fun room hroom => sweep_of_room hroom (Nat.le_refl _), htiled.sum_size,
    htiled.flatMap_bytes, fun i l hl => ?_⟩
  have hshows := htiled.shows hl
  have haddress := hshows.address
  refine ⟨haddress, fun hend => ?_, haddress ▸ hshows⟩
  have hpos := hshows.length_drop_lt
  rw [List.length_drop, List.length_drop] at hpos
  rw [haddress, Machine.toInt_add_ofNat (isValidBase_iff.mp hvalid).1 (by omega)]

/-- A plain instruction, one with a word of its own, and one whose word is cut off after a byte. -/
def cutImage : List UInt8 := [0xA0, 0x00, 0xC0, 0x15, 0x02, 0x00, 0xC0, 0x15, 0x07]

theorem disassemble_tiles_cut : ∃ lines, disassemble cutImage 0o1000 = .ok lines ∧
    lines.map Line.mnemonic = ["NOP", "MOV", ".WORD", ".BYTE"] ∧
    lines.map Line.size = [2, 4, 2, 1] ∧
    lines.flatMap (fun l => wordsToBytes l.words ++ l.trailing) = cutImage ∧
    ∃ l, lines[2]? = some l ∧ Shows 0o1006 l [0xC0, 0x15, 0x07] := by
  have hlines : disassemble cutImage 0o1000 = .ok (sweep 9 0o1000 cutImage) := rfl
  have hmnemonics : (sweep 9 0o1000 cutImage).map Line.mnemonic = ["NOP", "MOV", ".WORD", ".BYTE"] := by
    decide +kernel
  have hsizes : (sweep 9 0o1000 cutImage).map Line.size = [2, 4, 2, 1] := by decide +kernel
  obtain ⟨-, -, hbytes, hline⟩ := disassemble_tiles cutImage 0o1000 _ hlines
  have hlength : 2 < (sweep 9 0o1000 cutImage).length := by
    rw [← List.length_map (f := Line.size), hsizes]
    decide
  obtain ⟨haddress, -, hshows⟩ := hline 2 _ (List.getElem?_eq_getElem hlength)
  have hoffset : offset (sweep 9 0o1000 cutImage) 2 = 6 := by
    rw [offset, List.map_take, hsizes]
    rfl
  rw [haddress, hoffset] at hshows
  exact ⟨_, hlines, hmnemonics, hsizes, hbytes, _, List.getElem?_eq_getElem hlength, hshows⟩

end Eleven.Disassembly

import Eleven.Proofs.Disassembly.Reached
import Mathlib.Data.Set.Insert

/-! Which instructions control can come to, said without a search, and that a search marks exactly
these. What a search has to keep is said for any order in which it goes. -/
namespace Eleven.Disassembly

/-- A complete instruction stands at an address of an image that is loaded at `n`. -/
def InstructionAt (n : Nat) (code : List UInt8) (a : Nat) (l : Line) : Prop :=
  ∃ k low high rest, a = n + k ∧ code.drop k = low :: high :: rest ∧
    l = Line.decode (Int64.ofNat a) (Machine.wordOfBytes low high) rest ∧ l.isInstruction = true

/-- Where control can go from an instruction at an address. -/
inductive Leads (a : Nat) (l : Line) : Nat → Prop
  /-- The address behind it, unless execution never goes on there. -/
  | next (hgoes : l.mnemonic ∉ ["HALT", "BR", "JMP", "RTS", "RTI", "RTT"]) : Leads a l (a + l.size)
  /-- An even place that it names as code. A deferred operand names a vector. -/
  | jump {deferred : Bool} {t : UInt16} (hplace : l.place? = some (deferred, t))
    (hcode : l.kind = .branch ∨ l.kind = .sob ∨
      (l.mnemonic = "JMP" ∨ l.mnemonic = "JSR") ∧ deferred = false)
    (heven : t.toNat % 2 = 0) : Leads a l t.toNat

/-- The addresses that control can come to from the base of an image. -/
inductive Reachable (n : Nat) (code : List UInt8) : Nat → Prop
  | base : Reachable n code n
  | step {a a' : Nat} {l : Line} (ha : Reachable n code a) (hl : InstructionAt n code a l)
    (hleads : Leads a l a') : Reachable n code a'

/-- The addresses that a search looks at behind an instruction. -/
def nexts (a : Nat) (l : Line) : List Nat :=
  (if isTerminal l then [] else [a + l.size]) ++ (jumpTarget? l).toList.map UInt16.toNat

section Lines

variable {n a a' i : Nat} {code : List UInt8} {l l' : Line}

theorem getElem?_wordLines :
    (wordLines (Int64.ofNat n) code)[i]? = some l ↔
      ∃ low high rest, code.drop (2 * i) = low :: high :: rest ∧
        l = Line.decode (Int64.ofNat (n + 2 * i)) (Machine.wordOfBytes low high) rest := by
  induction i generalizing n code with
  | zero =>
    match code with
    | [] => simp [wordLines]
    | [_] => simp [wordLines]
    | low :: high :: rest => simp [wordLines, eq_comm]
  | succ i ih =>
    match code with
    | [] => simp [wordLines]
    | [_] => simp [wordLines, Nat.mul_succ]
    | low :: high :: rest =>
      rw [wordLines, List.getElem?_cons_succ, ofNat_add_two, ih,
        show n + 2 + 2 * i = n + 2 * (i + 1) by omega]
      rfl

/-- At word boundaries the instructions are among the lines that are decoded there. -/
theorem instructionAt_iff :
    InstructionAt n code (n + 2 * i) l ↔
      (wordLines (Int64.ofNat n) code)[i]? = some l ∧ l.isInstruction = true := by
  rw [getElem?_wordLines]
  constructor
  · rintro ⟨k, low, high, rest, hk, hcode, hl, hinstr⟩
    obtain rfl : k = 2 * i := by omega
    exact ⟨⟨low, high, rest, hcode, hl⟩, hinstr⟩
  · rintro ⟨⟨low, high, rest, hcode, hl⟩, hinstr⟩
    exact ⟨2 * i, low, high, rest, rfl, hcode, hl, hinstr⟩

theorem InstructionAt.unique (h : InstructionAt n code a l) (h' : InstructionAt n code a l') :
    l = l' := by
  obtain ⟨k, low, high, rest, rfl, hcode, rfl, -⟩ := h
  obtain ⟨k', low', high', rest', hk, hcode', rfl, -⟩ := h'
  obtain rfl : k = k' := by omega
  rw [hcode] at hcode'
  cases hcode'
  rfl

theorem InstructionAt.isInstruction (h : InstructionAt n code a l) : l.isInstruction = true := by
  obtain ⟨_, _, _, _, -, -, -, hinstr⟩ := h
  exact hinstr

theorem size_eq (hl : l.isInstruction = true) : l.size = 2 * l.words.length := by
  obtain ⟨address, words, content⟩ := l
  cases content with
  | instruction i args => rfl
  | word w => cases hl
  | byte b => cases hl

/-- An instruction lies in the image as a whole. -/
theorem InstructionAt.inside (h : InstructionAt n code a l) (hn : n + code.length ≤ 0o200000) :
    n ≤ a ∧ a + l.size ≤ n + code.length ∧ 0 < l.size ∧ l.address = Int64.ofNat a := by
  obtain ⟨k, low, high, rest, rfl, hcode, hl, hinstr⟩ := h
  have hlength := congrArg List.length hcode
  rw [List.length_drop, List.length_cons, List.length_cons] at hlength
  obtain ⟨xs, behind, hwords, haddress, hrest⟩ := decode_words hl hinstr (by omega)
  have hlength' := congrArg List.length hrest
  rw [List.length_append, length_wordsToBytes] at hlength'
  rw [size_eq hinstr, hwords, List.length_cons]
  exact ⟨by omega, by omega, by omega, haddress⟩

theorem jumpTarget?_eq_some {t : UInt16} :
    jumpTarget? l = some t ↔
      ∃ deferred, l.place? = some (deferred, t) ∧ (l.kind = .branch ∨ l.kind = .sob ∨
        (l.mnemonic = "JMP" ∨ l.mnemonic = "JSR") ∧ deferred = false) := by
  unfold jumpTarget?
  cases l.place? with
  | none => simp
  | some place =>
    obtain ⟨deferred, a⟩ := place
    simp only [Option.ite_none_right_eq_some, Option.some_inj, Prod.mk.injEq, Bool.or_eq_true,
      Bool.and_eq_true, beq_iff_eq, Bool.not_eq_true', or_assoc]
    constructor
    · rintro ⟨hcode, rfl⟩
      exact ⟨deferred, ⟨rfl, rfl⟩, hcode⟩
    · rintro ⟨_, ⟨rfl, rfl⟩, hcode⟩
      exact ⟨hcode, rfl⟩

/-- A search looks at all even addresses where control can go, and at no other ones. -/
theorem leads_iff (heven : a % 2 = 0) (hl : l.isInstruction = true) :
    Leads a l a' ↔ a' ∈ nexts a l ∧ a' % 2 = 0 := by
  have hsize := size_eq hl
  rw [nexts, List.mem_append, List.mem_map]
  constructor
  · rintro (hgoes | ⟨hplace, hcode, ht⟩)
    · refine ⟨.inl ?_, by omega⟩
      rw [if_neg (by simpa [isTerminal] using hgoes)]
      exact List.mem_singleton_self _
    · refine ⟨.inr ⟨_, ?_, rfl⟩, ht⟩
      exact Option.mem_toList.mpr (jumpTarget?_eq_some.mpr ⟨_, hplace, hcode⟩)
  · rintro ⟨hnext | ⟨t, ht, rfl⟩, heven'⟩
    · split_ifs at hnext with hterminal
      · cases hnext
      · rw [List.mem_singleton.mp hnext]
        exact .next (by simpa [isTerminal] using hterminal)
    · obtain ⟨deferred, hplace, hcode⟩ := jumpTarget?_eq_some.mp (Option.mem_toList.mp ht)
      exact .jump hplace hcode heven'

theorem length_nexts (a : Nat) (l : Line) : (nexts a l).length ≤ 2 := by
  have hjump : (jumpTarget? l).toList.length ≤ 1 := by cases jumpTarget? l <;> simp
  rw [nexts, List.length_append, List.length_map]
  split_ifs
  · rw [List.length_nil]
    omega
  · rw [List.length_singleton]
    omega

theorem InstructionAt.nexts_le (h : InstructionAt n code a l) (hn : n + code.length ≤ 0o200000) :
    ∀ b ∈ nexts a l, b ≤ 0o200000 := by
  obtain ⟨-, hend, -⟩ := h.inside hn
  intro b hb
  rcases List.mem_append.mp hb with hb | hb
  · split_ifs at hb
    · cases hb
    · rw [List.mem_singleton.mp hb]
      omega
  · obtain ⟨t, -, rfl⟩ := List.mem_map.mp hb
    exact t.toNat_lt.le

theorem successors_eq (h : l.address = Int64.ofNat a) :
    successors l = (nexts a l).map Int64.ofNat := by
  have hbehind : (if isTerminal l then [] else [Int64.ofNat a + Int64.ofNat l.size]) =
      (if isTerminal l then [] else [a + l.size]).map Int64.ofNat := by
    split_ifs
    · rfl
    · rw [List.map_singleton, Int64.ofNat_add]
  rw [successors, nexts, List.map_append, List.map_map, h, hbehind]
  rfl

end Lines

/-- There is no instruction at an even address, or it is marked. -/
def Settled (n : Nat) (code : List UInt8) (marked : Set Nat) (a : Nat) : Prop :=
  a % 2 = 0 → ∀ l, InstructionAt n code a l → a ∈ marked

/-- An address is still to be looked at, or nothing is left to do there. -/
def Covered (n : Nat) (code : List UInt8) (pending marked : Set Nat) (a : Nat) : Prop :=
  a ∈ pending ∨ Settled n code marked a

/-- A search under way, in whatever order it goes. It has marked and kept only what control can come
to, and what is still missing lies behind a pending address. -/
structure Explores (n : Nat) (code : List UInt8) (pending marked : Set Nat) : Prop where
  pending_sound : ∀ a ∈ pending, a % 2 = 0 → Reachable n code a
  marked_sound : ∀ a ∈ marked, Reachable n code a ∧ ∃ l, InstructionAt n code a l
  base : Covered n code pending marked n
  closed : ∀ a ∈ marked, ∀ l, InstructionAt n code a l → ∀ a', Leads a l a' →
    Covered n code pending marked a'

section Search

variable {n a b : Nat} {code : List UInt8} {l : Line} {pending pending' marked marked' : Set Nat}

/-- Dropping an address where nothing is left to do uncovers none. -/
theorem Covered.drop (h : Covered n code pending marked b) (hmarked : marked ⊆ marked')
    (ha : Settled n code marked' a) (hdrop : pending ⊆ insert a pending') :
    Covered n code pending' marked' b := by
  rcases h with hb | hb
  · rcases hdrop hb with rfl | hb
    · exact .inr ha
    · exact .inl hb
  · exact .inr fun heven l hl => hmarked (hb heven l hl)

theorem settled_insert (n : Nat) (code : List UInt8) (marked : Set Nat) (a : Nat) :
    Settled n code (insert a marked) a := fun _ _ _ => .inl rfl

theorem explores_start (n : Nat) (code : List UInt8) : Explores n code {n} ∅ where
  pending_sound := by
    rintro a rfl -
    exact .base
  marked_sound _ ha := ha.elim
  base := .inl rfl
  closed _ ha := ha.elim

theorem Reachable.even (heven : n % 2 = 0) (h : Reachable n code a) : a % 2 = 0 := by
  induction h with
  | base => exact heven
  | step _ hl hleads ih => exact ((leads_iff ih hl.isInstruction).mp hleads).2

/-- An address where nothing is left to mark can be dropped. -/
theorem Explores.skip (h : Explores n code pending marked) (ha : Settled n code marked a)
    (hless : pending' ⊆ pending) (hdrop : pending ⊆ insert a pending') :
    Explores n code pending' marked where
  pending_sound b hb := h.pending_sound b (hless hb)
  marked_sound := h.marked_sound
  base := h.base.drop (fun _ => id) ha hdrop
  closed b hb l hl b' hleads := (h.closed b hb l hl b' hleads).drop (fun _ => id) ha hdrop

/-- An instruction can be marked once the addresses behind it are covered. -/
theorem Explores.visit (h : Explores n code pending marked) (ha : a ∈ pending)
    (heven : a % 2 = 0) (hl : InstructionAt n code a l)
    (hless : ∀ b ∈ pending', b ∈ pending ∨ b ∈ nexts a l) (hdrop : pending ⊆ insert a pending')
    (hnexts : ∀ b, Leads a l b → Covered n code pending' (insert a marked) b) :
    Explores n code pending' (insert a marked) := by
  have hreach := h.pending_sound a ha heven
  have hmore : marked ⊆ insert a marked := fun _ => .inr
  have hmark := settled_insert n code marked a
  constructor
  · intro b hb heven'
    rcases hless b hb with hb | hb
    · exact h.pending_sound b hb heven'
    · exact .step hreach hl ((leads_iff heven hl.isInstruction).mpr ⟨hb, heven'⟩)
  · rintro b (rfl | hb)
    · exact ⟨hreach, l, hl⟩
    · exact h.marked_sound b hb
  · exact h.base.drop hmore hmark hdrop
  · rintro b (rfl | hb) l' hl' b' hleads
    · rw [hl'.unique hl] at hleads
      exact hnexts b' hleads
    · exact (h.closed b hb l' hl' b' hleads).drop hmore hmark hdrop

/-- A search that has nothing left to do has marked exactly the instructions that control can come
to. -/
theorem Explores.exact (h : Explores n code ∅ marked) (heven : n % 2 = 0) :
    a ∈ marked ↔ Reachable n code a ∧ ∃ l, InstructionAt n code a l := by
  have hsettled : ∀ b, Reachable n code b → Settled n code marked b := by
    intro b hb
    induction hb with
    | base => exact h.base.resolve_left id
    | @step b b' l hb hl hleads ih =>
      exact (h.closed b (ih (hb.even heven) l hl) l hl b' hleads).resolve_left id
  constructor
  · exact h.marked_sound a
  · rintro ⟨ha, l, hl⟩
    exact hsettled a ha (ha.even heven) l hl

end Search

/-- The addresses of the lines that are marked. -/
def markedAt (n : Nat) (marks : Array Bool) : Set Nat :=
  {a | ∃ i, a = n + 2 * i ∧ marks[i]? = some true}

section Marks

variable {n a i : Nat} {code : List UInt8} {marks : Array Bool}

theorem lineIndex?_eq_some (hn : n < 2 ^ 63) (ha : a < 2 ^ 63) :
    lineIndex? (Int64.ofNat n) (Int64.ofNat a) = some i ↔ a = n + 2 * i := by
  have hdistance : (Int64.ofNat a - Int64.ofNat n).toInt = (a : Int) - n := by
    rw [Int64.toInt_sub, Int64.toInt_ofNat_of_lt ha, Int64.toInt_ofNat_of_lt hn,
      Int.bmod_eq_of_le (by omega) (by omega)]
  have hsign : Int64.ofNat a - Int64.ofNat n < 0 ↔ a < n := by
    rw [Int64.lt_iff_toInt_lt, hdistance]
    change _ < (0 : Int) ↔ _
    omega
  have hrest : (Int64.ofNat a - Int64.ofNat n) % 2 = 0 ↔ ((a : Int) - n) % 2 = 0 := by
    rw [← Int64.toInt_inj, Int64.toInt_mod, hdistance]
    change ((a : Int) - n).tmod 2 = 0 ↔ _
    rw [← Int.dvd_iff_tmod_eq_zero, ← Int.dvd_iff_emod_eq_zero]
  simp only [lineIndex?, Bool.or_eq_true, decide_eq_true_eq, bne_iff_ne, ne_eq, hsign, hrest,
    Option.ite_none_left_eq_some, Option.some_inj, Int64.toNatClampNeg, hdistance]
  omega

theorem markedAt_set (h : marks[i]? = some false) :
    markedAt n (marks.setIfInBounds i true) = insert (n + 2 * i) (markedAt n marks) := by
  obtain ⟨hi, -⟩ := Array.getElem?_eq_some_iff.mp h
  ext a
  constructor
  · rintro ⟨j, rfl, hj⟩
    by_cases hij : i = j
    · exact .inl (by rw [hij])
    · rw [Array.getElem?_setIfInBounds_ne hij] at hj
      exact .inr ⟨j, rfl, hj⟩
  · rintro (rfl | ⟨j, rfl, hj⟩)
    · exact ⟨i, rfl, by rw [Array.getElem?_setIfInBounds_self_of_lt hi]⟩
    · refine ⟨j, rfl, ?_⟩
      by_cases hij : i = j
      · rw [← hij, Array.getElem?_setIfInBounds_self_of_lt hi]
      · rwa [Array.getElem?_setIfInBounds_ne hij]

theorem count_set (h : marks[i]? = some false) :
    (marks.setIfInBounds i true).count false + 1 = marks.count false := by
  obtain ⟨hi, hfalse⟩ := Array.getElem?_eq_some_iff.mp h
  have hsome : 0 < marks.count false := Array.count_pos_iff.mpr (hfalse ▸ Array.getElem_mem hi)
  rw [Array.setIfInBounds, dif_pos hi, Array.count_set]
  simp only [hfalse, beq_self_eq_true, if_true, Bool.true_beq, Bool.false_eq_true, if_false]
  omega

/-- One step of the search: it marks an instruction, or finds nothing to mark. -/
theorem markFrom_cons (heven : n % 2 = 0) (hn : n < 2 ^ 63) (ha : a < 2 ^ 63)
    (hsize : marks.size = (wordLines (Int64.ofNat n) code).length) (room : Nat)
    (pending : List Int64) :
    let lines := (wordLines (Int64.ofNat n) code).toArray
    (∃ i l, a = n + 2 * i ∧ InstructionAt n code a l ∧ marks[i]? = some false ∧
      markFrom (Int64.ofNat n) lines (room + 1) (Int64.ofNat a :: pending) marks =
        markFrom (Int64.ofNat n) lines room (successors l ++ pending)
          (marks.setIfInBounds i true)) ∨
    Settled n code (markedAt n marks) a ∧
      markFrom (Int64.ofNat n) lines (room + 1) (Int64.ofNat a :: pending) marks =
        markFrom (Int64.ofNat n) lines room pending marks := by
  intro lines
  rw [markFrom]
  split
  · rename_i hnone
    refine .inr ⟨fun ha' l hl => ?_, rfl⟩
    obtain ⟨k, _, _, _, hk, -⟩ := hl
    have hindex := (@lineIndex?_eq_some n a (k / 2) hn ha).mpr (by omega)
    rw [hnone] at hindex
    cases hindex
  · rename_i i hindex
    rw [lineIndex?_eq_some hn ha] at hindex
    subst hindex
    split
    · rename_i hnone
      refine .inr ⟨fun _ l hl => ?_, rfl⟩
      rw [instructionAt_iff] at hl
      simp [lines, hl.1] at hnone
    · rename_i l hl
      have hline : (wordLines (Int64.ofNat n) code)[i]? = some l := by simpa [lines] using hl
      rw [Array.getD_eq_getD_getElem?]
      split_ifs with hskip
      · refine .inr ⟨fun _ l' hl' => ⟨i, rfl, ?_⟩, rfl⟩
        obtain ⟨hline', hinstr⟩ := instructionAt_iff.mp hl'
        obtain rfl : l' = l := Option.some_inj.mp (hline'.symm.trans hline)
        obtain ⟨hi, -⟩ := List.getElem?_eq_some_iff.mp hline
        simpa [hinstr, hsize, hi] using hskip
      · rw [Bool.or_eq_true, not_or] at hskip
        obtain ⟨hmark, hinstr⟩ := hskip
        refine .inl ⟨i, l, rfl, instructionAt_iff.mpr ⟨hline, by simpa using hinstr⟩, ?_, rfl⟩
        cases hi : marks[i]? with
        | none => simp [hi] at hmark
        | some m => simpa [hi] using hmark

end Marks

section Reached

variable {n : Nat} {code : List UInt8}

/-- The search does what it has to. The induction is on the room, which is enough for the pending
addresses and two more for each line without a mark. -/
theorem explores_markFrom (heven : n % 2 = 0) (hn : n + code.length ≤ 0o200000) {room : Nat}
    (pending : List Nat) {marks : Array Bool}
    (hsize : marks.size = (wordLines (Int64.ofNat n) code).length)
    (hpending : ∀ a ∈ pending, a ≤ 0o200000)
    (hroom : pending.length + 2 * marks.count false ≤ room)
    (h : Explores n code {a | a ∈ pending} (markedAt n marks)) :
    Explores n code ∅ (markedAt n (markFrom (Int64.ofNat n)
      (wordLines (Int64.ofNat n) code).toArray room (pending.map Int64.ofNat) marks)) := by
  induction room generalizing pending marks with
  | zero =>
    obtain rfl : pending = [] := List.length_eq_zero_iff.mp (by omega)
    simpa [markFrom] using h
  | succ room ih =>
    cases pending with
    | nil => simpa [markFrom] using h
    | cons a pending =>
      have ha := hpending a (List.mem_cons_self ..)
      rw [List.length_cons] at hroom
      obtain ⟨i, l, rfl, hl, hmark, hrun⟩ | ⟨hsettled, hrun⟩ := markFrom_cons heven
        (by omega) (show a < 2 ^ 63 by omega) hsize room (pending.map Int64.ofNat)
      · obtain ⟨-, -, -, haddress⟩ := hl.inside hn
        have hcount := count_set hmark
        have hlength := length_nexts (n + 2 * i) l
        rw [List.map_cons, hrun, successors_eq haddress, ← List.map_append]
        refine ih _ (by rw [Array.size_setIfInBounds, hsize]) (fun b hb => ?_)
          (by rw [List.length_append]; omega) ?_
        · rcases List.mem_append.mp hb with hb | hb
          · exact hl.nexts_le hn b hb
          · exact hpending b (List.mem_cons_of_mem _ hb)
        · rw [markedAt_set hmark]
          refine h.visit (List.mem_cons_self ..) (by omega) hl (fun b hb => ?_) (fun b hb => ?_)
            fun b hleads => .inl ?_
          · exact (List.mem_append.mp hb).symm.imp_left (List.mem_cons_of_mem _)
          · exact (List.mem_cons.mp hb).imp_right (List.mem_append_right _)
          · exact List.mem_append_left _ ((leads_iff (by omega) hl.isInstruction).mp hleads).1
      · rw [List.map_cons, hrun]
        refine ih _ hsize (fun b hb => hpending b (List.mem_cons_of_mem _ hb)) (by omega) ?_
        exact h.skip hsettled (fun b hb => List.mem_cons_of_mem _ hb)
          fun b hb => List.mem_cons.mp hb

theorem explores_reached (heven : n % 2 = 0) (hn : n + code.length ≤ 0o200000) :
    Explores n code ∅
      (markedAt n (reached (Int64.ofNat n) (wordLines (Int64.ofNat n) code).toArray)) := by
  have hnone : markedAt n (Array.replicate (wordLines (Int64.ofNat n) code).length false) = ∅ := by
    refine Set.eq_empty_of_forall_notMem ?_
    rintro a ⟨i, -, hi⟩
    rw [Array.getElem?_replicate] at hi
    split_ifs at hi
    cases hi
  have hcount : (Array.replicate (wordLines (Int64.ofNat n) code).length false).count false =
      (wordLines (Int64.ofNat n) code).length := Array.count_replicate_self
  refine explores_markFrom heven hn [n] Array.size_replicate (fun a ha => ?_) ?_ ?_
  · rw [List.mem_singleton.mp ha]
    omega
  · rw [List.size_toArray, hcount, List.length_singleton]
    omega
  · rw [List.size_toArray, hnone]
    simpa using explores_start n code

theorem getElem?_reachedLines {i : Nat} {l : Line} :
    (reachedLines (Int64.ofNat n) code)[i]? = some (some l) ↔
      (wordLines (Int64.ofNat n) code)[i]? = some l ∧
        (reached (Int64.ofNat n) (wordLines (Int64.ofNat n) code).toArray)[i]? = some true := by
  rw [reachedLines, List.getElem?_zipWith_eq_some]
  constructor
  · rintro ⟨l', m, hline, hmark, hl⟩
    cases m with
    | false => cases hl
    | true =>
      cases hl
      exact ⟨hline, by rwa [Array.getElem?_toList] at hmark⟩
  · rintro ⟨hline, hmark⟩
    exact ⟨l, true, hline, by rwa [Array.getElem?_toList], rfl⟩

/-- A line is marked exactly if control can come to its address and an instruction stands there. -/
theorem marked_iff_reachable (heven : n % 2 = 0) (hn : n + code.length ≤ 0o200000) {i : Nat}
    {l : Line} :
    (reachedLines (Int64.ofNat n) code)[i]? = some (some l) ↔
      Reachable n code (n + 2 * i) ∧ InstructionAt n code (n + 2 * i) l := by
  have hmark : (reached (Int64.ofNat n) (wordLines (Int64.ofNat n) code).toArray)[i]? = some true ↔
      Reachable n code (n + 2 * i) ∧ ∃ l, InstructionAt n code (n + 2 * i) l := by
    rw [← (explores_reached heven hn).exact heven]
    constructor
    · exact fun hi => ⟨i, rfl, hi⟩
    · rintro ⟨j, hj, hi⟩
      obtain rfl : i = j := by omega
      exact hi
  rw [getElem?_reachedLines, hmark]
  constructor
  · rintro ⟨hline, hreach, l', hl'⟩
    obtain rfl : l = l' := Option.some_inj.mp (hline.symm.trans (instructionAt_iff.mp hl').1)
    exact ⟨hreach, hl'⟩
  · rintro ⟨hreach, hl⟩
    exact ⟨(instructionAt_iff.mp hl).1, hreach, l, hl⟩

end Reached

end Eleven.Disassembly

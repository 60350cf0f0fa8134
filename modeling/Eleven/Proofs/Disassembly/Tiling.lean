import Eleven.Proofs.Disassembly.Pieces

/-! Segments and runs of data tile the image, so their texts assemble to it. -/
namespace Eleven.Disassembly

open Eleven.Machine (wordsToBytes)

/-- The labels of the addresses from `n` on, `count` of them. -/
def labelsIn (labels : Labels) (n count : Nat) : List (Nat × Label) :=
  (List.range' n count).flatMap (labelsAt labels)

theorem labelsIn_add (labels : Labels) (n a b : Nat) :
    labelsIn labels n (a + b) = labelsIn labels n a ++ labelsIn labels (n + a) b := by
  have h := List.range'_append_1 (s := n) (m := a) (n := b)
  rw [labelsIn, ← h, List.flatMap_append]
  rfl

theorem labelsIn_one (labels : Labels) (n : Nat) : labelsIn labels n 1 = labelsAt labels n :=
  List.flatMap_singleton (labelsAt labels) n

theorem mem_labelsIn {labels : Labels} {n count : Nat} {d : Nat × Label} :
    d ∈ labelsIn labels n count ↔
      n ≤ d.1 ∧ d.1 < n + count ∧ labels (Int64.ofNat d.1) = some d.2 := by
  obtain ⟨m, k⟩ := d
  simp only [labelsIn, labelsAt, List.mem_flatMap, List.mem_range'_1, List.mem_map,
    Option.mem_toList, Prod.mk.injEq]
  constructor
  · rintro ⟨a, hm, k', hk, rfl, rfl⟩
    exact ⟨hm.1, hm.2, hk⟩
  · rintro ⟨hlow, hhigh, hk⟩
    exact ⟨m, ⟨hlow, hhigh⟩, k, hk, rfl, rfl⟩

/-- Runs from an address on that hold the bytes, none with a label behind its first byte. -/
inductive Cut (labels : Labels) : Nat → List (Int64 × List UInt8) → List UInt8 → Prop
  | nil (n : Nat) : Cut labels n [] []
  | cons {n : Nat} {b : UInt8} {bs rest : List UInt8} {runs : List (Int64 × List UInt8)}
    (hquiet : ∀ m, n < m → m < n + (b :: bs).length → labels (Int64.ofNat m) = none)
    (htail : Cut labels (n + (b :: bs).length) runs rest) :
    Cut labels n ((Int64.ofNat n, b :: bs) :: runs) (b :: bs ++ rest)

theorem ofNat_succ_eq (n : Nat) : Int64.ofNat n + 1 = Int64.ofNat (n + 1) := by
  rw [Int64.ofNat_add]
  rfl

theorem cut_dataRuns (labels : Labels) (n : Nat) (bytes : List UInt8) :
    Cut labels n (dataRuns labels (Int64.ofNat n) bytes) bytes := by
  induction bytes generalizing n with
  | nil => exact .nil n
  | cons b bytes ih =>
    have htail := ih (n + 1)
    have halone : ∀ m, n < m → m < n + [b].length → labels (Int64.ofNat m) = none := by
      intro m hlow hhigh
      rw [List.length_singleton] at hhigh
      omega
    rw [dataRuns, ofNat_succ_eq]
    generalize dataRuns labels (Int64.ofNat (n + 1)) bytes = runs at htail
    cases htail with
    | nil => exact @Cut.cons labels n b [] [] [] halone (.nil _)
    | @cons _ b' bs rest runs hquiet hrest =>
      dsimp only
      split_ifs with hlabel
      · exact .cons halone (.cons hquiet hrest)
      · have hnone : labels (Int64.ofNat (n + 1)) = none := by simpa using hlabel
        have hlength : n + 1 + (b' :: bs).length = n + (b :: b' :: bs).length := by
          simp only [List.length_cons]
          omega
        rw [hlength] at hquiet hrest
        refine .cons (fun m hlow hhigh => ?_) hrest
        rcases Nat.lt_or_ge (n + 1) m with hlt | hge
        · exact hquiet m hlt hhigh
        · rwa [show m = n + 1 by omega]

/-- A run is labelled at most at its first byte. -/
theorem labelsIn_run {labels : Labels} {n : Nat} {b : UInt8} {bs : List UInt8}
    (hquiet : ∀ m, n < m → m < n + (b :: bs).length → labels (Int64.ofNat m) = none) :
    labelsIn labels n (b :: bs).length = labelsAt labels n := by
  have hrest : labelsIn labels (n + 1) bs.length = [] := by
    refine List.flatMap_eq_nil_iff.mpr fun m hm => ?_
    obtain ⟨hlow, hhigh⟩ := List.mem_range'_1.mp hm
    rw [labelsAt, hquiet m hlow (by rw [List.length_cons]; omega)]
    rfl
  rw [List.length_cons, Nat.add_comm, labelsIn_add, hrest, List.append_nil, labelsIn_one]

theorem assembles_runs {labels shown : Labels} {n : Nat} {runs : List (Int64 × List UInt8)}
    {bytes : List UInt8} (h : Cut shown n runs bytes) (hn : n + bytes.length ≤ 0o200000) :
    Assembles labels n (String.join (runs.map fun r => labelLine shown r.1 ++ runText r.2)) bytes []
      (labelsIn shown n bytes.length) := by
  induction h with
  | nil n => exact assembles_nil labels n
  | @cons n b bs rest runs hquiet _ ih =>
    rw [List.length_append] at hn
    have hlabel := @assembles_labelLine labels n shown (by omega)
    have hrun := @assembles_runText labels n (b :: bs) (by omega)
    have hall := (hlabel.append hrun).append (ih (by omega))
    rw [List.append_nil (labelsAt shown n), ← labelsIn_run hquiet] at hall
    rw [List.map_cons, String.join_cons, List.length_append, labelsIn_add]
    exact hall

theorem assembles_dataText {labels shown : Labels} {n : Nat} {bytes : List UInt8}
    (hn : n + bytes.length ≤ 0o200000) :
    Assembles labels n (dataText bytes (Int64.ofNat n) shown) bytes []
      (labelsIn shown n bytes.length) :=
  assembles_runs (cut_dataRuns shown n bytes) hn

/-- Segments from an address on that hold the bytes. -/
inductive Tiles : Nat → List Segment → List UInt8 → Prop
  | nil (n : Nat) : Tiles n [] []
  | code {n : Nat} {w : UInt16} {behind rest : List UInt8} {l : Line} {segments : List Segment}
    (hl : l = Line.decode (Int64.ofNat n) w behind) (hinstr : l.isInstruction = true)
    (htail : Tiles (n + 2 * l.words.length) segments rest) :
    Tiles n (.code l :: segments) (wordsToBytes l.words ++ rest)
  | data {n : Nat} {bs rest : List UInt8} {segments : List Segment} (hne : bs ≠ [])
    (htail : Tiles (n + bs.length) segments rest) :
    Tiles n (.data (Int64.ofNat n) bs :: segments) (bs ++ rest)

/-- The lines at word boundaries are instructions that were decoded there. -/
def Marked : Nat → List (Option Line) → List UInt8 → Prop
  | n, line? :: lines, low :: high :: rest =>
    (∀ l ∈ line?, l = Line.decode (Int64.ofNat n) (Machine.wordOfBytes low high) rest ∧
      l.isInstruction = true) ∧ Marked (n + 2) lines rest
  | _, [], _ :: _ :: _ => False
  | _, _, _ => True

theorem ofNat_add_two (n : Nat) : Int64.ofNat n + 2 = Int64.ofNat (n + 2) := by
  rw [Int64.ofNat_add]
  rfl

/-- The words of an instruction are left out behind its first one. -/
theorem layout_covered {n : Nat} {lines : List (Option Line)} {xs : List UInt16}
    {rest : List UInt8} (h : Marked n lines (wordsToBytes xs ++ rest)) :
    ∃ lines', Marked (n + 2 * xs.length) lines' rest ∧
      layout xs.length (Int64.ofNat n) lines (wordsToBytes xs ++ rest) =
        layout 0 (Int64.ofNat (n + 2 * xs.length)) lines' rest := by
  induction xs generalizing n lines with
  | nil => exact ⟨lines, h, rfl⟩
  | cons x xs ih =>
    cases lines with
    | nil => exact h.elim
    | cons line? lines =>
      obtain ⟨lines', hmarked, hlayout⟩ := ih h.2
      have hlength : n + 2 * (x :: xs).length = n + 2 + 2 * xs.length := by
        rw [List.length_cons]
        omega
      refine ⟨lines', hlength ▸ hmarked, ?_⟩
      rw [hlength, ← hlayout, ← ofNat_add_two]
      rfl

/-- The first word of an instruction, and the words it took. -/
theorem decode_words {n : Nat} {w : UInt16} {rest : List UInt8} {l : Line}
    (hl : l = Line.decode (Int64.ofNat n) w rest) (hinstr : l.isInstruction = true)
    (hn : n < 2 ^ 63) :
    ∃ xs behind, l.words = w :: xs ∧ l.address = Int64.ofNat n ∧
      rest = wordsToBytes xs ++ behind := by
  subst hl
  obtain ⟨i, args, c, hi, hargs, hline⟩ := decode_eq_instruction hinstr
  have hint : (Int64.ofNat n).toInt = n := Int64.toInt_ofNat_of_lt hn
  obtain ⟨xs, hdecoded⟩ :=
    @decoded_args (fun _ => none) i (Int64.ofNat n) w rest args c hi (by omega) hargs
  refine ⟨xs, c.rest, ?_, by rw [hline], hdecoded.took.rest⟩
  rw [hline, hdecoded.took.taken, List.reverse_append, List.reverse_reverse]
  rfl

/-- A word of data joins the data behind it. -/
def joinWord (a : Int64) (low high : UInt8) : List Segment → List Segment
  | .data _ bytes :: segments => .data a (low :: high :: bytes) :: segments
  | segments => .data a [low, high] :: segments

theorem layout_none (a : Int64) (lines : List (Option Line)) (low high : UInt8)
    (rest : List UInt8) : layout 0 a (none :: lines) (low :: high :: rest) =
      joinWord a low high (layout 0 (a + 2) lines rest) := rfl

theorem tiles_joinWord {n : Nat} (low high : UInt8) {rest : List UInt8} {segments : List Segment}
    (h : Tiles (n + 2) segments rest) :
    Tiles n (joinWord (Int64.ofNat n) low high segments) (low :: high :: rest) := by
  cases h with
  | nil => exact @Tiles.data n [low, high] _ _ (by simp) (.nil _)
  | code hl hinstr htail => exact @Tiles.data n [low, high] _ _ (by simp) (.code hl hinstr htail)
  | @data _ bs rest segments hne htail =>
    have hlength : n + 2 + bs.length = n + (low :: high :: bs).length := by
      simp only [List.length_cons]
      omega
    exact @Tiles.data n (low :: high :: bs) _ _ (by simp) (hlength ▸ htail)

/-- The layout of an image whose words are marked. -/
theorem tiles_layout {n : Nat} {lines : List (Option Line)} {bytes : List UInt8}
    (h : Marked n lines bytes) (hn : n + bytes.length < 2 ^ 63) :
    Tiles n (layout 0 (Int64.ofNat n) lines bytes) bytes := by
  -- An instruction covers as many bytes as it has words, so the induction is on the length.
  induction hcount : bytes.length using Nat.strongRecOn generalizing n lines bytes with
  | _ count ih =>
    match lines, bytes with
    | lines, [] => cases lines <;> exact .nil n
    | lines, [b] => cases lines <;> exact @Tiles.data n [b] _ _ (by simp) (.nil _)
    | [], low :: high :: rest => exact h.elim
    | none :: lines, low :: high :: rest =>
      rw [List.length_cons, List.length_cons] at hn hcount
      have hrest := ih rest.length (by omega) h.2 (by omega) rfl
      rw [layout_none, ofNat_add_two]
      exact tiles_joinWord low high hrest
    | some l :: lines, low :: high :: rest =>
      rw [List.length_cons, List.length_cons] at hn hcount
      obtain ⟨hl, hinstr⟩ := h.1 l rfl
      obtain ⟨xs, behind, hwords, -, hrest⟩ := decode_words hl hinstr (by omega)
      have hmarked := h.2
      rw [hrest] at hmarked
      obtain ⟨lines', hmarked', hlayout⟩ := layout_covered hmarked
      have hlength := congrArg List.length hrest
      rw [List.length_append, length_wordsToBytes] at hlength
      have htail := ih behind.length (by omega) hmarked' (by omega) rfl
      have hbytes : low :: high :: rest = wordsToBytes l.words ++ behind := by
        rw [hwords, hrest]
        change _ = Machine.bytesOfWord (Machine.wordOfBytes low high) ++ wordsToBytes xs ++ behind
        rw [Machine.bytesOfWord_wordOfBytes]
        rfl
      have hcover : n + 2 * l.words.length = n + 2 + 2 * xs.length := by
        rw [hwords, List.length_cons]
        omega
      rw [← hlayout, ← hrest, ← hcover, ← ofNat_add_two] at htail
      have hsegments : layout 0 (Int64.ofNat n) (some l :: lines) (low :: high :: rest) =
          .code l :: layout xs.length (Int64.ofNat n + 2) lines rest := by
        rw [layout, hwords, List.length_cons, Nat.add_sub_cancel]
      rw [hsegments, hbytes]
      exact .code hl hinstr htail

/-- The instructions that segments hold. -/
def codeLines (segments : List Segment) : List Line :=
  segments.filterMap fun
    | .code l => some l
    | .data _ _ => none

/-- The labels that the text of a segment defines. -/
def segmentLabels (labels : Labels) : Segment → List (Nat × Label)
  | .code l => labelsAt labels l.address.toInt.toNat
  | .data start bytes => labelsIn labels start.toInt.toNat bytes.length

theorem assembles_tiles {labels : Labels} {n : Nat} {segments : List Segment} {bytes : List UInt8}
    (h : Tiles n segments bytes) (hn : n + bytes.length ≤ 0o200000) :
    Assembles labels n (String.join (segments.map (segmentText labels))) bytes (codeLines segments)
      (segments.flatMap (segmentLabels labels)) := by
  induction h with
  | nil n => exact assembles_nil labels n
  | @code n w behind rest l segments hl hinstr _ ih =>
    rw [List.length_append, length_wordsToBytes] at hn
    obtain ⟨xs, _, hwords, haddress, -⟩ := decode_words hl hinstr (by omega)
    have hcode := @assembles_codeText labels n w behind l hl hinstr (by omega)
    have hall := hcode.append (by rw [length_wordsToBytes]; exact ih (by omega))
    have hlabels : segmentLabels labels (.code l) = labelsAt labels n := by
      rw [segmentLabels, haddress, toNat_toInt_ofNat (by omega)]
    rw [List.map_cons, String.join_cons, List.flatMap_cons, hlabels]
    exact hall
  | @data n bs rest segments hne _ ih =>
    rw [List.length_append] at hn
    have hdata := @assembles_dataText labels labels n bs (by omega)
    have hall := hdata.append (ih (by omega))
    have hlabels : segmentLabels labels (.data (Int64.ofNat n) bs) = labelsIn labels n bs.length := by
      rw [segmentLabels, toNat_toInt_ofNat (by omega)]
    rw [List.map_cons, String.join_cons, List.flatMap_cons, hlabels]
    exact hall

theorem sublist_segmentLabels {labels : Labels} {n : Nat} {segments : List Segment}
    {bytes : List UInt8} (h : Tiles n segments bytes) (hn : n + bytes.length ≤ 0o200000) :
    (segments.flatMap (segmentLabels labels)).Sublist (labelsIn labels n bytes.length) := by
  induction h with
  | nil n => exact .slnil
  | @code n w behind rest l segments hl hinstr _ ih =>
    rw [List.length_append, length_wordsToBytes] at hn
    obtain ⟨xs, _, hwords, haddress, -⟩ := decode_words hl hinstr (by omega)
    rw [List.flatMap_cons, List.length_append, labelsIn_add, length_wordsToBytes]
    refine List.Sublist.append ?_ (ih (by omega))
    rw [segmentLabels, haddress, toNat_toInt_ofNat (by omega), hwords, List.length_cons,
      show 2 * (xs.length + 1) = 1 + (2 * xs.length + 1) by omega, labelsIn_add, labelsIn_one]
    exact List.sublist_append_left _ _
  | @data n bs rest segments hne _ ih =>
    rw [List.length_append] at hn
    rw [List.flatMap_cons, List.length_append, labelsIn_add, segmentLabels,
      toNat_toInt_ofNat (by omega)]
    exact (List.Sublist.refl _).append (ih (by omega))

/-- Labels of different places have different names. -/
theorem nameOf_inj {d d' : Nat × Label} (hd : d.1 < 2 ^ 63) (hd' : d'.1 < 2 ^ 63)
    (h : nameOf d = nameOf d') : d.1 = d'.1 := by
  obtain ⟨front, hfront, hname⟩ := toList_labelName (Int64.ofNat d.1) d.2
  obtain ⟨front', hfront', hname'⟩ := toList_labelName (Int64.ofNat d'.1) d'.2
  have hlength : ∀ f ∈ [['L', 'O', 'C'], ['S', 'U', 'B']], f.length = 3 := by decide
  have hlist := congrArg String.toList h
  rw [nameOf, nameOf, hname, hname'] at hlist
  have hdigits := List.append_inj_right hlist
    ((hlength front hfront).trans (hlength front' hfront').symm)
  exact Text.paddedOctal_inj hd hd' (String.toList_inj.mp hdigits)

theorem nodup_labelsIn (labels : Labels) {n count : Nat} (hn : n + count ≤ 2 ^ 63) :
    ((labelsIn labels n count).map nameOf).Nodup := by
  induction count generalizing n with
  | zero => exact List.nodup_nil
  | succ count ih =>
    rw [Nat.add_comm, labelsIn_add, labelsIn_one, List.map_append, List.nodup_append]
    refine ⟨?_, ih (by omega), ?_⟩
    · unfold labelsAt
      cases labels (Int64.ofNat n) with
      | none => exact List.nodup_nil
      | some k => simp
    · rintro _ hfirst _ hrest rfl
      obtain ⟨d, hd, hname⟩ := List.mem_map.mp hfirst
      obtain ⟨d', hd', hname'⟩ := List.mem_map.mp hrest
      obtain ⟨k, -, rfl⟩ := List.mem_map.mp hd
      obtain ⟨hlow, hhigh, -⟩ := mem_labelsIn.mp hd'
      have heq := nameOf_inj (d := (n, k)) (by simp; omega) (by omega) (hname.trans hname'.symm)
      simp only at heq
      omega

theorem fresh_segmentLabels {labels : Labels} {n : Nat} {segments : List Segment}
    {bytes : List UInt8} (h : Tiles n segments bytes) (hn : n + bytes.length ≤ 0o200000) :
    Fresh (segments.flatMap (segmentLabels labels)) SymbolTable.empty where
  distinct := ((sublist_segmentLabels h hn).map nameOf).nodup (nodup_labelsIn labels (by omega))
  undefined _ _ := rfl

/-- Every label that the text shows is defined in it. -/
theorem mem_segmentLabels {labels : Labels} {n : Nat} {segments : List Segment}
    {bytes : List UInt8} (h : Tiles n segments bytes) (hn : n + bytes.length ≤ 0o200000) {a : Int64}
    (hshows : segments.any (Segment.shows a) = true) {k : Label} (hk : labels a = some k) :
    ∃ m, (m, k) ∈ segments.flatMap (segmentLabels labels) ∧ a = Int64.ofNat m := by
  induction h with
  | nil => cases hshows
  | @code n w behind rest l segments hl hinstr _ ih =>
    rw [List.length_append, length_wordsToBytes] at hn
    rw [List.any_cons, Bool.or_eq_true] at hshows
    rcases hshows with hfirst | hrest
    · obtain ⟨xs, _, hwords, haddress, -⟩ := decode_words hl hinstr (by omega)
      have ha : l.address = a := by simpa [Segment.shows] using hfirst
      rw [haddress] at ha
      refine ⟨n, List.mem_append_left _ ?_, ha.symm⟩
      rw [segmentLabels, haddress, toNat_toInt_ofNat (by omega), labelsAt, ha, hk]
      exact List.mem_singleton_self _
    · obtain ⟨m, hm, ha⟩ := ih (by omega) hrest
      exact ⟨m, List.mem_append_right _ hm, ha⟩
  | @data n bs rest segments hne _ ih =>
    rw [List.length_append] at hn
    rw [List.any_cons, Bool.or_eq_true] at hshows
    rcases hshows with hfirst | hrest
    · have hbounds : Int64.ofNat n ≤ a ∧ a < Int64.ofNat n + Int64.ofNat bs.length := by
        simpa [Segment.shows] using hfirst
      rw [Int64.le_iff_toInt_le, Int64.lt_iff_toInt_lt, ← Int64.ofNat_add,
        Int64.toInt_ofNat_of_lt (by omega), Int64.toInt_ofNat_of_lt (by omega)] at hbounds
      have ha : a = Int64.ofNat a.toInt.toNat := by
        rw [← Int64.toInt_inj, Int64.toInt_ofNat_of_lt (by omega)]
        omega
      refine ⟨a.toInt.toNat, List.mem_append_left _ ?_, ha⟩
      rw [segmentLabels, toNat_toInt_ofNat (by omega), mem_labelsIn, ← ha]
      exact ⟨by omega, by omega, hk⟩
    · obtain ⟨m, hm, ha⟩ := ih (by omega) hrest
      exact ⟨m, List.mem_append_right _ hm, ha⟩

end Eleven.Disassembly

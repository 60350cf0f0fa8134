import Eleven.Proofs.Disassembly.Tiling

/-! Control flow marks instructions only, so what is laid out as code was decoded at its place. -/
namespace Eleven.Disassembly

/-- One mark for each line, none at a line that is no instruction. -/
structure MarksCode (lines : Array Line) (marks : Array Bool) : Prop where
  size : marks.size = lines.size
  code : ∀ (i : Nat) (l : Line), lines[i]? = some l → marks[i]? = some true → l.isInstruction = true

theorem marksCode_replicate (lines : Array Line) :
    MarksCode lines (Array.replicate lines.size false) where
  size := Array.size_replicate
  code i l _ hmark := by
    rw [Array.getElem?_replicate] at hmark
    split_ifs at hmark
    cases hmark

theorem MarksCode.mark {lines : Array Line} {marks : Array Bool} (h : MarksCode lines marks)
    {i : Nat} {l : Line} (hl : lines[i]? = some l) (hinstr : l.isInstruction = true) :
    MarksCode lines (marks.setIfInBounds i true) where
  size := by rw [Array.size_setIfInBounds, h.size]
  code j m hm hmark := by
    by_cases hij : i = j
    · subst hij
      rw [hl] at hm
      cases hm
      exact hinstr
    · rw [Array.getElem?_setIfInBounds_ne hij] at hmark
      exact h.code j m hm hmark

theorem marksCode_markFrom (base : Int64) {lines : Array Line} (room : Nat)
    (pending : List Int64) {marks : Array Bool} (h : MarksCode lines marks) :
    MarksCode lines (markFrom base lines room pending marks) := by
  induction room generalizing pending marks with
  | zero => exact h
  | succ room ih =>
    cases pending with
    | nil => exact h
    | cons a pending =>
      rw [markFrom]
      split
      · exact ih pending h
      · rename_i i _
        split
        · exact ih pending h
        · rename_i l hl
          split_ifs with hskip
          · exact ih pending h
          · have hinstr : l.isInstruction = true := by
              simp only [Bool.or_eq_true, Bool.not_eq_true', not_or, Bool.not_eq_false] at hskip
              exact hskip.2
            exact ih _ (h.mark hl hinstr)

theorem MarksCode.forall₂ {lines : List Line} {marks : Array Bool}
    (h : MarksCode lines.toArray marks) :
    List.Forall₂ (fun l m => m = true → Line.isInstruction l = true) lines marks.toList := by
  refine List.forall₂_iff_get.mpr ⟨by simpa using h.size.symm, fun i hl hm htrue => ?_⟩
  refine h.code i (lines.get ⟨i, hl⟩) (by simp [hl]) ?_
  rw [← htrue]
  simp at hm
  simp [hm]

/-- Words with the marks of those that control flow reaches. -/
theorem marked_wordLines {n : Nat} {code : List UInt8} {marks : List Bool}
    (h : List.Forall₂ (fun l m => m = true → Line.isInstruction l = true)
      (wordLines (Int64.ofNat n) code) marks) :
    Marked n (List.zipWith (fun l m => if m then some l else none)
      (wordLines (Int64.ofNat n) code) marks) code := by
  induction hcount : code.length using Nat.strongRecOn generalizing n code marks with
  | _ count ih =>
    match code with
    | [] => trivial
    | [_] => trivial
    | low :: high :: rest =>
      rw [wordLines, ofNat_add_two] at h ⊢
      rw [List.length_cons, List.length_cons] at hcount
      rcases h with _ | ⟨hline, htail⟩
      refine ⟨fun l hl => ?_, ih rest.length (by omega) htail rfl⟩
      dsimp only at hl
      split_ifs at hl with hmark
      · cases hl
        exact ⟨rfl, hline hmark⟩
      · cases hl

theorem marked_reachedLines (n : Nat) (code : List UInt8) :
    Marked n (reachedLines (Int64.ofNat n) code) code :=
  marked_wordLines (marksCode_markFrom _ _ _ (marksCode_replicate _)).forall₂

end Eleven.Disassembly

import Eleven.Source.Reader
import Mathlib.Logic.Function.Iterate
import Mathlib.Order.Monotone.Basic

/-! Reading a command takes a line at least, and no line is taken twice. -/
namespace Eleven.Source.Reader

/-- The lines that remain once some have been taken from the front. -/
structure Remain (lines : List String) (taken : Nat) (rest : List String) : Prop where
  eq_drop : rest = lines.drop taken
  taken_le : taken ≤ lines.length

namespace Remain

variable {lines rest : List String} {taken : Nat} {line : String}

theorem getElem? (h : Remain lines taken (line :: rest)) : lines[taken]? = some line := by
  rw [← List.head?_drop, ← h.eq_drop]
  rfl

theorem tail (h : Remain lines taken (line :: rest)) : Remain lines (taken + 1) rest := by
  constructor
  · rw [← List.drop_drop, ← h.eq_drop]
    rfl
  · exact (List.getElem?_eq_some_iff.mp h.getElem?).1

theorem length (h : Remain lines taken rest) : taken + rest.length = lines.length := by
  rw [h.eq_drop, List.length_drop]
  exact Nat.add_sub_cancel' h.taken_le

end Remain

/-- The reader has taken the first lines of a file and no others. -/
structure Within (file : String) (lines : List String) (r : Reader) : Prop where
  file : r.file = file
  remain : Remain lines r.taken r.lines

theorem within_ofSource (file text : String) :
    (ofSource file text).Within file (Text.lines text) :=
  ⟨rfl, rfl, Nat.zero_le _⟩

/-- What is read from lines, some of which were taken before: the reader has taken lines from the
front, at least one where no opening brace is wanted, and all of them if it has found nothing. -/
structure Scanned (file : String) (wanted : Option OpenBlock) (taken : Nat) (lines : List String)
    (x : Result) : Prop where
  file : x.2.file = file
  front : ∃ n ≤ lines.length, x.2.taken = taken + n ∧ x.2.lines = lines.drop n ∧
    (wanted = none → lines ≠ [] → 0 < n)
  ended : x.1 = none → x.2.lines = []

theorem Scanned.cons {file line : String} {wanted wanted' : Option OpenBlock} {taken : Nat}
    {rest : List String} {x : Result} (h : Scanned file wanted' (taken + 1) rest x) :
    Scanned file wanted taken (line :: rest) x := by
  obtain ⟨n, hn, htaken, hlines, -⟩ := h.front
  refine ⟨h.file, ⟨n + 1, Nat.succ_le_succ hn, ?_, hlines, fun _ _ => Nat.succ_pos n⟩, h.ended⟩
  rw [htaken]
  omega

/-- One case for each way in which a line is taken or left. -/
theorem scanned_scan (file : String) (blocks : List OpenBlock) (wanted : Option OpenBlock)
    (decimal : Bool) (taken : Nat) (lines : List String) :
    Scanned file wanted taken lines (scan file blocks wanted decimal taken lines) := by
  fun_induction scan file blocks wanted decimal taken lines
  all_goals first
    | exact ⟨rfl, ⟨0, Nat.zero_le _, rfl, rfl, fun _ hne => absurd rfl hne⟩, fun _ => rfl⟩
    | exact ⟨rfl, ⟨0, Nat.zero_le _, rfl, rfl, nofun⟩, nofun⟩
    | exact ⟨rfl, ⟨1, Nat.succ_le_succ (Nat.zero_le _), rfl, rfl, fun _ _ => Nat.one_pos⟩, nofun⟩
    | rename_i ih
      exact ih.cons

theorem within_scan {file : String} {lines : List String} (blocks : List OpenBlock)
    (wanted : Option OpenBlock) (decimal : Bool) {taken : Nat} {rest : List String}
    (h : Remain lines taken rest) :
    (scan file blocks wanted decimal taken rest).2.Within file lines := by
  have hscanned := scanned_scan file blocks wanted decimal taken rest
  obtain ⟨n, hn, htaken, hlines, -⟩ := hscanned.front
  have hlength := h.length
  refine ⟨hscanned.file, ?_, ?_⟩
  · rw [hlines, htaken, h.eq_drop, List.drop_drop]
  · omega

theorem Within.next {file : String} {lines : List String} {r : Reader} (h : r.Within file lines) :
    r.next.2.Within file lines := by
  rw [Reader.next, h.file]
  exact within_scan _ _ _ h.remain

/-- Lines are taken from the front, in order. -/
theorem scan_suffix (file : String) (blocks : List OpenBlock) (wanted : Option OpenBlock)
    (decimal : Bool) (taken : Nat) (lines : List String) :
    (scan file blocks wanted decimal taken lines).2.lines <:+ lines := by
  obtain ⟨n, -, -, hlines, -⟩ := (scanned_scan file blocks wanted decimal taken lines).front
  rw [hlines]
  exact List.drop_suffix n lines

/-- Where no opening brace is wanted, the first line is taken whatever it holds. -/
theorem scan_cons_suffix (file : String) (blocks : List OpenBlock) (decimal : Bool) (taken : Nat)
    (line : String) (rest : List String) :
    (scan file blocks none decimal taken (line :: rest)).2.lines <:+ rest := by
  obtain ⟨n, -, -, hlines, hpos⟩ :=
    (scanned_scan file blocks none decimal taken (line :: rest)).front
  obtain ⟨m, rfl⟩ := Nat.exists_eq_succ_of_ne_zero (hpos rfl (List.cons_ne_nil _ _)).ne'
  rw [hlines]
  exact List.drop_suffix m rest

theorem next_of_lines_nil {r : Reader} (h : r.lines = []) : r.next.1 = none := by
  rw [next, h]
  rfl

/-- A command, or the failure of one, uses up lines. -/
theorem length_lines_lt {r after : Reader} {x : Except Failure Command}
    (h : r.next = (some x, after)) : after.lines.length < r.lines.length := by
  have hnext := h
  rw [next] at h
  cases hlines : r.lines with
  | nil =>
    have hnone := next_of_lines_nil hlines
    rw [hnext] at hnone
    cases hnone
  | cons line rest =>
    have hsuffix := scan_cons_suffix r.file [] r.decimal r.taken line rest
    rw [← hlines, h] at hsuffix
    have hlength : after.lines.length ≤ rest.length := hsuffix.length_le
    rw [List.length_cons]
    omega

theorem lines_next_of_none {r : Reader} (h : r.next.1 = none) : r.next.2.lines = [] :=
  (scanned_scan r.file [] none r.decimal r.taken r.lines).ended h

/-- The reader after some calls, whatever they gave. -/
def afterCalls (r : Reader) (k : Nat) : Reader := (fun r : Reader => r.next.2)^[k] r

theorem afterCalls_succ (r : Reader) (k : Nat) :
    r.afterCalls (k + 1) = (r.afterCalls k).next.2 :=
  Function.iterate_succ_apply' _ k r

theorem next_afterCalls_of_lines_nil {r : Reader} (h : r.lines = []) (k : Nat) :
    (r.afterCalls k).next.1 = none := by
  induction k generalizing r with
  | zero => exact next_of_lines_nil h
  | succ k ih => exact ih (lines_next_of_none (next_of_lines_nil h))

/-- The calls give what is read, and nothing more once all is read. -/
theorem next_afterCalls {r : Reader} {room : Nat} (hroom : r.lines.length ≤ room) (k : Nat) :
    (r.afterCalls k).next.1 = (readAll room r)[k]? := by
  induction room generalizing r k with
  | zero =>
    have hempty : r.lines = [] := List.length_eq_zero_iff.mp (Nat.le_zero.mp hroom)
    rw [next_afterCalls_of_lines_nil hempty, readAll]
    rfl
  | succ room ih =>
    rcases hnext : r.next with ⟨x, after⟩
    have hafter : r.next.2 = after := congrArg Prod.snd hnext
    have hfirst : r.next.1 = x := congrArg Prod.fst hnext
    rw [readAll, hnext]
    cases x with
    | none =>
      cases k with
      | zero => exact hfirst
      | succ k => exact next_afterCalls_of_lines_nil (lines_next_of_none hfirst) k
    | some x =>
      have hlt := length_lines_lt hnext
      cases k with
      | zero => exact hfirst
      | succ k =>
        have hrest := ih (r := after) (by omega) k
        rw [← hafter] at hrest
        rw [List.getElem?_cons_succ, ← hafter]
        exact hrest

theorem length_readAll_le (room : Nat) (r : Reader) : (readAll room r).length ≤ room := by
  induction room generalizing r with
  | zero => exact Nat.le_refl 0
  | succ room ih =>
    rw [readAll]
    split
    · exact Nat.zero_le _
    · exact Nat.succ_le_succ (ih _)

section Calls

variable {file : String} {lines : List String} {r : Reader} (hr : r.Within file lines)
include hr

theorem Within.afterCalls (k : Nat) : (r.afterCalls k).Within file lines := by
  induction k with
  | zero => exact hr
  | succ k ih =>
    rw [afterCalls_succ]
    exact ih.next

theorem Within.taken_le_next : r.taken ≤ r.next.2.taken := by
  have hbefore := hr.remain.length
  have hafter := hr.next.remain.length
  have hlines : r.next.2.lines.length ≤ r.lines.length :=
    (scan_suffix r.file [] none r.decimal r.taken r.lines).length_le
  omega

theorem Within.taken_lt_next {x : Except Failure Command} (hx : r.next.1 = some x) :
    r.taken < r.next.2.taken := by
  have hbefore := hr.remain.length
  have hafter := hr.next.remain.length
  have hlines : r.next.2.lines.length < r.lines.length := length_lines_lt (Prod.ext hx rfl)
  omega

theorem Within.monotone_taken : Monotone fun k => (r.afterCalls k).taken := by
  apply monotone_nat_of_le_succ
  intro k
  rw [afterCalls_succ]
  exact (hr.afterCalls k).taken_le_next

/-- Each line that remains is taken by one call, and by no other. -/
theorem Within.existsUnique_call {i : Nat} (hfirst : r.taken ≤ i) (hlast : i < lines.length) :
    ∃! k, (r.afterCalls k).taken ≤ i ∧ i < (r.afterCalls (k + 1)).taken := by
  have hmono := hr.monotone_taken
  -- The call that finds nothing more has taken all lines.
  have hend : ∃ n, i < (r.afterCalls n).taken := by
    have hover : (r.afterCalls r.lines.length).next.1 = none := by
      rw [next_afterCalls (Nat.le_refl _), List.getElem?_eq_none (length_readAll_le _ r)]
    have hall := (hr.afterCalls (r.lines.length + 1)).remain.length
    rw [afterCalls_succ, lines_next_of_none hover] at hall
    refine ⟨r.lines.length + 1, ?_⟩
    rw [afterCalls_succ]
    exact lt_of_lt_of_eq hlast hall.symm
  obtain ⟨n, hn⟩ := hend
  have hcall : ∃ k, (r.afterCalls k).taken ≤ i ∧ i < (r.afterCalls (k + 1)).taken := by
    induction n with
    | zero => exact absurd hn (Nat.not_lt.mpr hfirst)
    | succ n ih =>
      by_cases hbefore : i < (r.afterCalls n).taken
      · exact ih hbefore
      · exact ⟨n, Nat.not_lt.mp hbefore, hn⟩
  obtain ⟨k, hk⟩ := hcall
  refine ⟨k, hk, fun k' hk' => ?_⟩
  by_contra hne
  rcases Nat.lt_or_gt_of_ne hne with hlt | hlt
  · have hbetween := hmono (Nat.succ_le_of_lt hlt)
    exact absurd (lt_of_lt_of_le hk'.2 hbetween) (Nat.not_lt.mpr hk.1)
  · have hbetween := hmono (Nat.succ_le_of_lt hlt)
    exact absurd (lt_of_lt_of_le hk.2 hbetween) (Nat.not_lt.mpr hk'.1)

end Calls

end Eleven.Source.Reader

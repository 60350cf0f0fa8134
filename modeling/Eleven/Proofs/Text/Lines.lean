import Eleven.Text.Split

/-! A text as its lines, and the line around a place in it. -/
namespace Eleven.Text

/-- A character that ends no line. -/
def IsInner (c : Char) : Prop := c ≠ '\n' ∧ c ≠ '\r'

theorem dropCarriageReturns_of_not_mem {cs : List Char} (h : '\r' ∉ cs) :
    dropCarriageReturns cs = cs := by
  fun_induction dropCarriageReturns cs with
  | case1 => rfl
  | case2 => rfl
  | case3 c d rest hcd ih =>
    simp only [Bool.and_eq_true, decide_eq_true_eq] at hcd
    exact absurd (hcd.1 ▸ List.mem_cons_self ..) h
  | case4 c d rest _ ih => rw [ih fun hmem => h (List.mem_cons_of_mem c hmem)]

section Split

variable {sep c : Char}

theorem split_cons_self (sep : Char) (rest : List Char) :
    split sep (sep :: rest) = [] :: split sep rest := if_pos rfl

/-- Any other character stands in front of the first piece. -/
theorem split_cons_of_ne (hc : c ≠ sep) {rest piece : List Char} {pieces : List (List Char)}
    (h : split sep rest = piece :: pieces) : split sep (c :: rest) = (c :: piece) :: pieces := by
  refine (if_neg hc).trans ?_
  rw [h]

theorem split_ne_nil (cs : List Char) : split sep cs ≠ [] := by
  induction cs with
  | nil => exact List.cons_ne_nil _ _
  | cons c cs ih =>
    by_cases hc : c = sep
    · rw [hc, split_cons_self]
      exact List.cons_ne_nil _ _
    · obtain ⟨piece, pieces, hsplit⟩ := List.exists_cons_of_ne_nil ih
      rw [split_cons_of_ne hc hsplit]
      exact List.cons_ne_nil _ _

theorem split_append {piece : List Char} (h : sep ∉ piece) (rest : List Char) :
    split sep (piece ++ sep :: rest) = piece :: split sep rest := by
  induction piece with
  | nil => exact split_cons_self sep rest
  | cons c piece ih =>
    have hc : c ≠ sep := fun hc => h (hc ▸ List.mem_cons_self ..)
    exact split_cons_of_ne hc (ih fun hmem => h (List.mem_cons_of_mem c hmem))

theorem split_of_not_mem {cs : List Char} (h : sep ∉ cs) : split sep cs = [cs] := by
  induction cs with
  | nil => rfl
  | cons c cs ih =>
    have hc : c ≠ sep := fun hc => h (hc ▸ List.mem_cons_self ..)
    exact split_cons_of_ne hc (ih fun hmem => h (List.mem_cons_of_mem c hmem))

theorem not_mem_of_mem_split {cs piece : List Char} (h : piece ∈ split sep cs) : sep ∉ piece := by
  induction cs generalizing piece with
  | nil =>
    rw [List.mem_singleton.mp h]
    exact List.not_mem_nil
  | cons c cs ih =>
    by_cases hc : c = sep
    · rw [hc, split_cons_self, List.mem_cons] at h
      rcases h with rfl | h
      · exact List.not_mem_nil
      · exact ih h
    · have hne : split sep cs ≠ [] := split_ne_nil cs
      obtain ⟨first, pieces, hsplit⟩ := List.exists_cons_of_ne_nil hne
      rw [split_cons_of_ne hc hsplit] at h
      rw [hsplit] at ih
      rcases List.mem_cons.mp h with rfl | h
      · rw [List.mem_cons, not_or]
        exact ⟨Ne.symm hc, ih (List.mem_cons_self ..)⟩
      · exact ih (List.mem_cons_of_mem _ h)

end Split

/-- A line end at the very end opens an empty line. -/
theorem split_concat (cs : List Char) : split '\n' (cs ++ ['\n']) = split '\n' cs ++ [[]] := by
  induction cs with
  | nil => rfl
  | cons c cs ih =>
    by_cases hc : c = '\n'
    · rw [hc, List.cons_append, split_cons_self, split_cons_self, ih, List.cons_append]
    · obtain ⟨piece, pieces, hsplit⟩ := List.exists_cons_of_ne_nil (split_ne_nil cs)
      rw [hsplit, List.cons_append] at ih
      rw [List.cons_append, split_cons_of_ne hc ih, split_cons_of_ne hc hsplit, List.cons_append]

theorem toList_join_lines (ls : List String) :
    (String.join (ls.map (· ++ "\n"))).toList = ls.flatMap fun l => l.toList ++ ['\n'] := by
  rw [String.toList_join, List.flatMap_map]
  simp

theorem not_mem_join_lines {ls : List String} (h : ∀ l ∈ ls, ∀ c ∈ l.toList, IsInner c) :
    '\r' ∉ (String.join (ls.map (· ++ "\n"))).toList := by
  rw [toList_join_lines]
  simp only [List.mem_flatMap, not_exists, not_and]
  intro l hl hmem
  rcases List.mem_append.mp hmem with hmem | hmem
  · exact (h l hl _ hmem).2 rfl
  · revert hmem
    decide

/-- Lines are found again, and an empty one behind the last line end. -/
theorem lines_join {ls : List String} (h : ∀ l ∈ ls, ∀ c ∈ l.toList, IsInner c) :
    lines (String.join (ls.map (· ++ "\n"))) = ls ++ [""] := by
  have hsplit : split '\n' (ls.flatMap fun l => l.toList ++ ['\n']) =
      ls.map String.toList ++ [[]] := by
    induction ls with
    | nil => rfl
    | cons l ls ih =>
      have hl : '\n' ∉ l.toList := fun hmem => (h l (by simp) _ hmem).1 rfl
      rw [List.flatMap_cons, List.append_assoc, List.singleton_append, split_append hl,
        ih fun l hl => h l (List.mem_cons_of_mem _ hl)]
      rfl
  rw [lines, dropCarriageReturns_of_not_mem (not_mem_join_lines h), toList_join_lines, hsplit,
    List.map_append, List.map_map]
  simp

/-- The last line end may be missing. -/
theorem lines_of_append_newline {ls : List String} (h : ∀ l ∈ ls, ∀ c ∈ l.toList, IsInner c)
    {text : String} (htext : text ++ "\n" = String.join (ls.map (· ++ "\n"))) :
    lines text = ls := by
  have hreturn := not_mem_join_lines h
  rw [← htext, String.toList_append, List.mem_append, not_or] at hreturn
  have hlines := lines_join h
  rw [← htext, lines, dropCarriageReturns_of_not_mem (by simpa using hreturn), String.toList_append]
    at hlines
  change (split '\n' (text.toList ++ ['\n'])).map String.ofList = _ at hlines
  rw [split_concat, List.map_append] at hlines
  rw [lines, dropCarriageReturns_of_not_mem hreturn.1]
  exact List.append_cancel_right hlines

theorem join_lines_eq {ls : List String} (hne : ls ≠ []) :
    String.join (ls.map (· ++ "\n")) = "\n".intercalate ls ++ "\n" := by
  induction ls with
  | nil => exact absurd rfl hne
  | cons l ls ih =>
    cases ls with
    | nil => simp
    | cons l' ls =>
      rw [List.map_cons, String.join_cons, ih (by simp), String.intercalate_cons_cons,
        ← String.append_assoc]

section Places

/-- The line that a text leaves open at its end. -/
def openLine (text : String) : String :=
  String.ofList ((split '\n' (dropCarriageReturns text.toList)).getLastD [])

/-- A text up to its first line end. -/
def restOfLine (text : String) : String :=
  String.ofList ((split '\n' (dropCarriageReturns text.toList)).headD [])

theorem dropCarriageReturns_append {xs ys : List Char}
    (h : xs.getLast? = some '\r' → ys.head? ≠ some '\n') :
    dropCarriageReturns (xs ++ ys) = dropCarriageReturns xs ++ dropCarriageReturns ys := by
  fun_induction dropCarriageReturns xs with
  | case1 => rfl
  | case2 c =>
    cases ys with
    | nil => rfl
    | cons d ys =>
      have hcd : ¬ (c = '\r' && d = '\n') = true := by
        intro hcd
        simp only [Bool.and_eq_true, decide_eq_true_eq] at hcd
        exact h (by rw [hcd.1]; rfl) (by rw [hcd.2]; rfl)
      rw [List.singleton_append, dropCarriageReturns, if_neg hcd]
      rfl
  | case3 c d rest hcd ih =>
    rw [List.cons_append, List.cons_append, dropCarriageReturns, if_pos hcd]
    exact ih (by rwa [List.getLast?_cons_cons] at h)
  | case4 c d rest hcd ih =>
    rw [List.cons_append, List.cons_append, dropCarriageReturns, if_neg hcd]
    exact congrArg (c :: ·) (ih (by rwa [List.getLast?_cons_cons] at h))

theorem dropCarriageReturns_of_one_line {cs : List Char} (h : '\n' ∉ cs) :
    dropCarriageReturns cs = cs := by
  fun_induction dropCarriageReturns cs with
  | case1 => rfl
  | case2 => rfl
  | case3 c d rest hcd ih =>
    simp only [Bool.and_eq_true, decide_eq_true_eq] at hcd
    exact absurd (hcd.2 ▸ List.mem_cons_of_mem c (List.mem_cons_self ..)) h
  | case4 c d rest _ ih => rw [ih fun hmem => h (List.mem_cons_of_mem c hmem)]

/-- Where two texts meet, the last line of one goes on with the first line of the other. -/
theorem split_meet (xs ys : List Char) :
    split '\n' (xs ++ ys) = (split '\n' xs).dropLast ++
      ((split '\n' xs).getLastD [] ++ (split '\n' ys).headD []) :: (split '\n' ys).tail := by
  induction xs with
  | nil =>
    obtain ⟨piece, pieces, hys⟩ := List.exists_cons_of_ne_nil (split_ne_nil ys)
    rw [List.nil_append, hys]
    rfl
  | cons c xs ih =>
    obtain ⟨piece, pieces, hxs⟩ := List.exists_cons_of_ne_nil (split_ne_nil xs)
    rw [hxs] at ih
    by_cases hc : c = '\n'
    · rw [hc, List.cons_append, split_cons_self, split_cons_self, ih, hxs]
      rfl
    · cases pieces
      all_goals
        rw [List.cons_append, split_cons_of_ne hc ih, split_cons_of_ne hc hxs]
        rfl

/-- The lines of a text, seen from some characters of one of them. -/
theorem lines_around {before w after : String} (hw : '\n' ∉ w.toList) (hne : w.toList ≠ [])
    (hlast : w.toList.getLast? ≠ some '\r') :
    lines (before ++ w ++ after) =
      (lines before).dropLast ++ (openLine before ++ w ++ restOfLine after) ::
        (lines after).tail := by
  have hdrop : dropCarriageReturns (before.toList ++ (w.toList ++ after.toList)) =
      dropCarriageReturns before.toList ++ (w.toList ++ dropCarriageReturns after.toList) := by
    have hfirst : (w.toList ++ after.toList).head? ≠ some '\n' := by
      obtain ⟨c, cs, hcs⟩ := List.exists_cons_of_ne_nil hne
      rw [hcs] at hw ⊢
      rintro ⟨⟩
      exact hw (List.mem_cons_self ..)
    rw [dropCarriageReturns_append fun _ => hfirst,
      dropCarriageReturns_append fun h => absurd h hlast, dropCarriageReturns_of_one_line hw]
  have hsplit : split '\n' (w.toList ++ dropCarriageReturns after.toList) =
      (w.toList ++ (restOfLine after).toList) ::
        (split '\n' (dropCarriageReturns after.toList)).tail := by
    rw [split_meet, split_of_not_mem hw, restOfLine, String.toList_ofList]
    rfl
  have hopen : (split '\n' (dropCarriageReturns before.toList)).getLastD [] =
      (openLine before).toList := by
    rw [openLine, String.toList_ofList]
  unfold lines
  rw [String.toList_append, String.toList_append, List.append_assoc, hdrop, split_meet, hsplit,
    hopen, List.tail_cons, List.headD_cons, List.map_append, List.map_cons, List.map_dropLast,
    List.map_tail, String.ofList_append, String.ofList_append, String.ofList_toList,
    String.ofList_toList, String.ofList_toList, String.append_assoc]

theorem lines_cons {line : String} (h : ∀ c ∈ line.toList, IsInner c) (text : String) :
    lines (line ++ "\n" ++ text) = line :: lines text := by
  have hline : '\n' ∉ line.toList := fun hmem => (h _ hmem).1 rfl
  have hreturn : '\r' ∉ line.toList ++ ['\n'] := by
    rw [List.mem_append, not_or]
    exact ⟨fun hmem => (h _ hmem).2 rfl, by decide⟩
  have hlast : (line.toList ++ ['\n']).getLast? ≠ some '\r' := by simp
  have hdrop : dropCarriageReturns (line.toList ++ ['\n'] ++ text.toList) =
      line.toList ++ '\n' :: dropCarriageReturns text.toList := by
    rw [dropCarriageReturns_append fun h => absurd h hlast,
      dropCarriageReturns_of_not_mem hreturn, List.append_assoc, List.singleton_append]
  unfold lines
  rw [String.toList_append, String.toList_append]
  change (split '\n' (dropCarriageReturns (line.toList ++ ['\n'] ++ text.toList))).map _ = _
  rw [hdrop, split_append hline, List.map_cons, String.ofList_toList]

end Places

end Eleven.Text

import Eleven.Proofs.Source.Lexing
import Eleven.Source.Reader
import Mathlib.Data.List.Forall2

/-! Sources that are made line by line are read command by command. -/
namespace Eleven.Source

/-- Wherever the line stands, where plain numbers are octal, it is read as a command of which the
property holds. -/
structure Yields (line : String) (p : Command → Prop) : Prop where
  inner : ∀ c ∈ line.toList, Text.IsInner c
  reads : ∀ file number, ∃ c, Reader.readLine file false number line =
    (.statement (.command c), false) ∧ p c

theorem next_blank (file : String) (k taken : Nat) :
    (Reader.next ⟨file, List.replicate k "", taken, false⟩).1 = none := by
  induction k generalizing taken with
  | zero => rfl
  | succ k ih => exact ih (taken + 1)

theorem readAll_blank (file : String) (k taken room : Nat) :
    Reader.readAll room ⟨file, List.replicate k "", taken, false⟩ = [] := by
  cases room with
  | zero => rfl
  | succ room =>
    have hnext := next_blank file k taken
    rw [Reader.readAll]
    split
    · rfl
    · rename_i hsome
      rw [hsome] at hnext
      cases hnext

theorem readAll_of_yields {ls : List (String × (Command → Prop))} (h : ∀ l ∈ ls, Yields l.1 l.2)
    (file : String) (k taken room : Nat) (hroom : ls.length ≤ room) :
    ∃ cs, Reader.readAll room ⟨file, ls.map Prod.fst ++ List.replicate k "", taken, false⟩ =
      cs.map .ok ∧ List.Forall₂ (fun l c => l.2 c) ls cs := by
  induction ls generalizing taken room with
  | nil => exact ⟨[], by rw [List.map_nil, List.nil_append, readAll_blank]; rfl, .nil⟩
  | cons l ls ih =>
    obtain ⟨c, hread, hc⟩ := (h l (by simp)).reads file (taken + 1)
    obtain ⟨room, rfl⟩ : ∃ r, room = r + 1 := ⟨room - 1, by simp at hroom; omega⟩
    obtain ⟨cs, hcs, hall⟩ := ih (fun l hl => h l (List.mem_cons_of_mem _ hl)) (taken + 1) room
      (by simpa using hroom)
    have hnext : Reader.next ⟨file, l.1 :: (ls.map Prod.fst ++ List.replicate k ""), taken, false⟩ =
        (some (.ok c), ⟨file, ls.map Prod.fst ++ List.replicate k "", taken + 1, false⟩) := by
      rw [Reader.next, Reader.scan, hread]
    refine ⟨c :: cs, ?_, .cons hc hall⟩
    rw [List.map_cons, List.cons_append, Reader.readAll, hnext]
    dsimp only
    rw [hcs]
    rfl

/-- The commands of a source whose every line yields one. The last line end may be missing. -/
theorem commands_of_yields {ls : List (String × (Command → Prop))} (h : ∀ l ∈ ls, Yields l.1 l.2)
    (file : String) {text : String} (htext : text = String.join (ls.map fun l => l.1 ++ "\n") ∨
      text ++ "\n" = String.join (ls.map fun l => l.1 ++ "\n")) :
    ∃ cs, Reader.commands file text = cs.map .ok ∧ List.Forall₂ (fun l c => l.2 c) ls cs := by
  have hinner : ∀ l ∈ ls.map Prod.fst, ∀ c ∈ l.toList, Text.IsInner c := by
    intro l hl
    obtain ⟨x, hx, rfl⟩ := List.mem_map.mp hl
    exact (h x hx).inner
  have hlines : (ls.map fun l => l.1 ++ "\n") = (ls.map Prod.fst).map (· ++ "\n") := by
    rw [List.map_map]
    rfl
  obtain ⟨k, hk⟩ : ∃ k, Text.lines text = ls.map Prod.fst ++ List.replicate k "" := by
    rw [hlines] at htext
    rcases htext with rfl | htext
    · exact ⟨1, Text.lines_join hinner⟩
    · exact ⟨0, by rw [Text.lines_of_append_newline hinner htext]; simp⟩
  rw [Reader.commands, Reader.ofSource, hk]
  exact readAll_of_yields h file k 0 _ (by simp)

end Eleven.Source

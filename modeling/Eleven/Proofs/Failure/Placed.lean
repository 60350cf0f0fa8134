import Eleven.Proofs.Failure.Raising
import Eleven.Source.Complaint
import Eleven.Failure.Problem

/-! Failures that say where they happened, and those that can still be told. -/
namespace Eleven

/-- Positions that name a file, whatever their column. -/
structure Places (Q : Position → Prop) : Prop where
  file : ∀ {pos}, Q pos → pos.file ≠ ""
  column : ∀ {pos} (c : Int), Q pos → Q { pos with column := c }

namespace Failure

/-- The outermost report stands at a position that satisfies `Q`. -/
def Placed (Q : Position → Prop) (e : Failure) : Prop :=
  ∃ d, e.diagnostic? = some d ∧ Q d.position

/-- There is no report yet, or the outermost one stands at a position that satisfies `Q`. -/
def Placeable (Q : Position → Prop) (e : Failure) : Prop :=
  ∀ d, e.diagnostic? = some d → Q d.position

variable {Q : Position → Prop}

theorem placeable_fault (f : Fault) : Placeable Q (.fault f) := by
  intro d h
  cases h

theorem Placed.placeable {e : Failure} (h : Placed Q e) : Placeable Q e := by
  intro d hd
  obtain ⟨d', hd', hpos⟩ := h
  rw [hd'] at hd
  cases hd
  exact hpos

theorem Placed.mono {Q' : Position → Prop} (hQ : ∀ pos, Q pos → Q' pos) {e : Failure}
    (h : Placed Q e) : Placed Q' e := by
  obtain ⟨d, hd, hpos⟩ := h
  exact ⟨d, hd, hQ _ hpos⟩

theorem Placeable.mono {Q' : Position → Prop} (hQ : ∀ pos, Q pos → Q' pos) {e : Failure}
    (h : Placeable Q e) : Placeable Q' e := fun d hd => hQ _ (h d hd)

theorem Placeable.within {e : Failure} (h : Placeable Q e) (label : String) :
    Placeable Q (.within label e) := h

/-- A failure that can still be told its position has one afterwards. One with a place keeps it. -/
theorem Placeable.annotate (hQ : Places Q) {e : Failure} (h : Placeable Q e) {pos : Position}
    (hpos : Q pos) : Placed Q (e.annotate pos) := by
  unfold Failure.annotate
  cases hd : e.diagnostic? with
  | none => exact ⟨_, rfl, hpos⟩
  | some d =>
    have hfile : ¬ d.position.file = "" := hQ.file (h d hd)
    simp only [hfile, if_false]
    exact ⟨d, hd, h d hd⟩

theorem placed_report {pos : Position} (hpos : Q pos) (c : Option Category) (m : String) :
    Placed Q (.report ⟨c, m, pos⟩) := ⟨_, rfl, hpos⟩

theorem placed_reportOf {pos : Position} (hpos : Q pos) (c : Option Category) (m : String)
    (cause : Failure) : Placed Q (.reportOf ⟨c, m, pos⟩ cause) := ⟨_, rfl, hpos⟩

end Failure

section Reports

variable {Q : Position → Prop} {pos : Position} (hpos : Q pos)
include hpos

theorem Problem.placed_failure (p : Problem) : (p.failure pos).Placed Q :=
  Failure.placed_report hpos _ _

theorem Problem.placed_failureOf (p : Problem) (cause : Failure) :
    (p.failureOf pos cause).Placed Q := Failure.placed_reportOf hpos _ _ cause

theorem Source.Complaint.placed_failure (c : Complaint) : (c.failure pos).Placed Q :=
  Failure.placed_report hpos _ _

end Reports

end Eleven

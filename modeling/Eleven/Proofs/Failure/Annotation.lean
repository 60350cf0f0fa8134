import Eleven.Failure.Basic

/-! What a failure keeps when it is given a position: its categories, the place it has, its words. -/
namespace Eleven.Failure

/-- The position of the outermost report, if that names a file. -/
def place? (e : Failure) : Option Position :=
  (e.diagnostic?.map (·.position)).filter (·.file ≠ "")

/-- The same failure with another position in the report that stands on top of it. -/
inductive Moved (p : Position) : Failure → Failure → Prop where
  | report (d : Diagnostic) : Moved p (.report d) (.report { d with position := p })
  | reportOf (d : Diagnostic) (cause : Failure) :
    Moved p (.reportOf d cause) (.reportOf { d with position := p } cause)

/-- The failure as the cause of a report that repeats its words. -/
inductive Covered (p : Position) : Failure → Failure → Prop where
  | cover (c : Option Category) (e : Failure) : Covered p e (.reportOf ⟨c, e.message, p⟩ e)

/-- What giving a failure a position can do. One with a place is left as it is. -/
theorem annotate_cases (e : Failure) (p : Position) :
    (∃ r, e.place? = some r ∧ e.annotate p = e) ∨
      e.place? = none ∧ (Moved p e (e.annotate p) ∨ Covered p e (e.annotate p)) := by
  unfold annotate
  cases hd : e.diagnostic? with
  | none =>
    right
    have hplace : e.place? = none := by simp [place?, hd]
    exact ⟨hplace, .inr (.cover _ e)⟩
  | some d =>
    by_cases hfile : d.position.file = ""
    · right
      have hplace : e.place? = none := by simp [place?, hd, hfile]
      constructor
      · exact hplace
      · simp only [hfile, if_true]
        split
        · next d => exact .inl (.report d)
        · next d cause => exact .inl (.reportOf d cause)
        · exact .inr (.cover _ _)
    · left
      have hplace : e.place? = some d.position := by simp [place?, hd, hfile]
      exact ⟨d.position, hplace, if_neg hfile⟩

section Given

variable {e e' : Failure} {p : Position}

theorem Moved.is_eq (h : Moved p e e') (c : Category) : e'.is c = e.is c := by
  cases h <;> rfl

theorem Moved.diagnostic? (h : Moved p e e') : ∃ d, e'.diagnostic? = some d ∧ d.position = p := by
  cases h with
  | report d => exact ⟨_, rfl, rfl⟩
  | reportOf d cause => exact ⟨_, rfl, rfl⟩

/-- The report on top had no place, so its words come without one. -/
theorem Moved.message (h : Moved p e e') (he : e.place? = none) :
    e'.message = e.message ++ p.block := by
  cases h with
  | report d =>
    have hfile : d.position.file = "" := by simpa [place?, Failure.diagnostic?] using he
    simp [Failure.message, Position.block, hfile]
  | reportOf d cause =>
    have hfile : d.position.file = "" := by simpa [place?, Failure.diagnostic?] using he
    simp [Failure.message, Position.block, hfile]

theorem Covered.is (h : Covered p e e') {c : Category} (hc : e.is c = true) : e'.is c = true := by
  cases h with
  | cover c' e => simp [Failure.is, hc]

theorem Covered.diagnostic? (h : Covered p e e') : ∃ d, e'.diagnostic? = some d ∧ d.position = p := by
  cases h with
  | cover c e => exact ⟨_, rfl, rfl⟩

theorem Covered.message (h : Covered p e e') : e'.message = e.message ++ p.block := by
  cases h with
  | cover c e =>
    show (if e.message = "" then e.message else e.message) ++ p.block = e.message ++ p.block
    rw [ite_self]

theorem place?_of_diagnostic? (h : ∃ d, e.diagnostic? = some d ∧ d.position = p)
    (hp : p.file ≠ "") : e.place? = some p := by
  obtain ⟨d, hd, rfl⟩ := h
  simp [place?, hd, hp]

/-- After the annotation there is a place: the one that was there, else the given one. -/
theorem place?_annotate (e : Failure) (hp : p.file ≠ "") :
    (e.annotate p).place? = some (e.place?.getD p) := by
  rcases annotate_cases e p with ⟨r, hplace, hkept⟩ | ⟨hplace, hmoved | hcovered⟩
  · rw [hkept, hplace, Option.getD_some]
  · rw [hplace, Option.getD_none]
    exact place?_of_diagnostic? hmoved.diagnostic? hp
  · rw [hplace, Option.getD_none]
    exact place?_of_diagnostic? hcovered.diagnostic? hp

theorem is_annotate (p : Position) {c : Category} (hc : e.is c = true) :
    (e.annotate p).is c = true := by
  rcases annotate_cases e p with ⟨r, -, hkept⟩ | ⟨-, hmoved | hcovered⟩
  · rw [hkept, hc]
  · rw [hmoved.is_eq, hc]
  · exact hcovered.is hc

theorem message_annotate (e : Failure) (p : Position) :
    (e.annotate p).message = e.message ++ (if e.place? = none then p.block else "") := by
  rcases annotate_cases e p with ⟨r, hplace, hkept⟩ | ⟨hplace, hmoved | hcovered⟩
  · simp [hplace, hkept]
  · simp only [hplace, if_true, hmoved.message hplace]
  · simp only [hplace, if_true, hcovered.message]

/-- A second position is not taken. -/
theorem annotate_annotate (e : Failure) (hp : p.file ≠ "") (q : Position) :
    (e.annotate p).annotate q = e.annotate p := by
  have hplace := place?_annotate e hp
  rcases annotate_cases (e.annotate p) q with ⟨r, -, hkept⟩ | ⟨hnone, -⟩
  · exact hkept
  · rw [hplace] at hnone
    cases hnone

theorem diagnostic?_of_place? {r : Position} (h : e.place? = some r) :
    ∃ d, e.diagnostic? = some d ∧ d.position = r := by
  have hmap := (Option.filter_eq_some_iff.mp h).1
  exact Option.map_eq_some_iff.mp hmap

end Given

/-- Giving a failure a position loses nothing, whatever was put around its causes: it stays in every
category it was in, its outermost report stands where it stood if that was a place and at the given
position otherwise, the position is put after the words exactly in the second case, and only
once. -/
theorem annotate_loses_nothing (e : Failure) (p q : Position) (hp : p.file ≠ "") :
    (∀ c, e.is c = true → (e.annotate p).is c = true) ∧
      (∃ d, (e.annotate p).diagnostic? = some d ∧ d.position = e.place?.getD p) ∧
      (e.annotate p).message = e.message ++ (if e.place? = none then p.block else "") ∧
      (e.annotate p).annotate q = e.annotate p := by
  have hplace := place?_annotate e hp
  exact ⟨fun c hc => is_annotate p hc, diagnostic?_of_place? hplace, message_annotate e p,
    annotate_annotate e hp q⟩

/-- A report without a place, under a label and beside an undefined symbol. -/
def buriedReport : Failure :=
  .within "symbol X" (.joined "A and more" (.fault (.undefinedSymbol "A"))
    (.report ⟨some .outOfRange, "Byte 0o400 is too big", .nowhere⟩))

def thirdLine : Position := ⟨"a.mac", 3, 1, "X = 400"⟩

theorem annotate_loses_nothing_buried :
    thirdLine.file ≠ "" ∧ buriedReport.place? = none ∧
      (buriedReport.annotate thirdLine).is .undefinedSymbol = true ∧
      (buriedReport.annotate thirdLine).is .outOfRange = true ∧
      (buriedReport.annotate thirdLine).message =
        "symbol X: A and more\n  at file a.mac (line 3, column 1)\n\nX = 400" := by
  have hfile : thirdLine.file ≠ "" := by decide
  have hplace : buriedReport.place? = none := by decide
  obtain ⟨his, -, hmessage, -⟩ :=
    annotate_loses_nothing buriedReport thirdLine .nowhere hfile
  exact ⟨hfile, hplace, his _ (by decide), his _ (by decide), hmessage.trans (by decide)⟩

end Eleven.Failure

import Eleven.Proofs.Source.NumberForms
import Mathlib.Algebra.Group.Nat.Defs
import Mathlib.Data.List.Induction

/-! Numbers of plain digits. -/
namespace Eleven.Text

/-- The base of plain digits. -/
def plainRadix (decimal : Bool) : Nat := if decimal then 10 else 8

theorem toLower_of_isDigit {c : Char} (h : c.isDigit = true) : c.toLower = c := by
  have hupper : ¬ (c.val ≥ 65 ∧ c.val ≤ 90) := by
    simp only [Char.isDigit, Bool.and_eq_true, decide_eq_true_eq] at h
    rintro ⟨hlow, -⟩
    have hnine := UInt32.le_trans hlow h.2
    exact absurd hnine (by decide)
  unfold Char.toLower
  exact dif_neg hupper

/-- A digit is the one of its place behind zero. -/
theorem eq_digitChar_of_isDigit {c : Char} (h : c.isDigit = true) :
    c.toNat - '0'.toNat < 10 ∧ c = Nat.digitChar (c.toNat - '0'.toNat) := by
  have hrange : '0' ≤ c ∧ c ≤ '9' := by
    simpa [Char.isDigit, Char.le_def] using h
  have hvalue : digitValue? c = some (c.toNat - '0'.toNat) := if_pos hrange
  have hnine : c.toNat ≤ 57 := hrange.2
  have hlt : c.toNat - '0'.toNat < 10 := by
    change c.toNat - 48 < 10
    omega
  exact ⟨hlt, (digitValue?_eq_some_iff (Nat.lt_trans hlt (by decide))).mp hvalue⟩

theorem toNat_digitChar : ∀ d < 10, (Nat.digitChar d).toNat - '0'.toNat = d := by decide

theorem ofDigitChars_map_digitChar (radix : Nat) {ds : List Nat} (hds : ∀ d ∈ ds, d < 10) :
    Nat.ofDigitChars radix (ds.map Nat.digitChar) 0 = positional radix ds := by
  induction ds using List.reverseRecOn with
  | nil => rw [positional_nil, List.map_nil, Nat.ofDigitChars_nil]
  | append_singleton ds d ih =>
    obtain ⟨hds, hd⟩ := List.forall_mem_append.mp hds
    rw [List.map_append, Nat.ofDigitChars_append, ih hds, positional_append_singleton,
      List.map_singleton, Nat.ofDigitChars_cons, Nat.ofDigitChars_nil,
      toNat_digitChar d (hd d (List.mem_singleton_self d)), Nat.mul_comm]

/-- Plain digits are a number if all of them are digits of the radix in force and the number fits. -/
theorem numeral?_digits {cs : List Char} (hne : cs ≠ []) (hcs : ∀ c ∈ cs, c.isDigit = true)
    (decimal : Bool) (n : Int64) :
    Source.numeral? decimal (String.ofList cs) = some n ↔
      (∀ c ∈ cs, c.toNat - '0'.toNat < plainRadix decimal) ∧
        Nat.ofDigitChars (plainRadix decimal) cs 0 < 2 ^ 63 ∧
        n = Int64.ofNat (Nat.ofDigitChars (plainRadix decimal) cs 0) := by
  have hradix : 0 < plainRadix decimal ∧ plainRadix decimal ≤ 16 := by cases decimal <;> decide
  have hlower : cs.map Char.toLower = cs := by
    rw [List.map_congr_left fun c hc => toLower_of_isDigit (hcs c hc), List.map_id']
  obtain ⟨ds, hten, rfl⟩ : ∃ ds : List Nat, (∀ d ∈ ds, d < 10) ∧ cs = ds.map Nat.digitChar := by
    refine ⟨cs.map fun c => c.toNat - '0'.toNat, ?_, ?_⟩
    · exact List.forall_mem_map.mpr fun c hc => (eq_digitChar_of_isDigit (hcs c hc)).1
    · rw [List.map_map]
      exact (List.map_id cs).symm.trans
        (List.map_congr_left fun c hc => (eq_digitChar_of_isDigit (hcs c hc)).2)
  have hmap : ds ≠ [] := fun hnil => hne (List.map_eq_nil_iff.mpr hnil)
  rw [Source.numeral?_eq_some_iff_readInteger, String.toList_ofList, hlower,
    Source.NumberForm.radixOf_digits decimal hcs, ofDigitChars_map_digitChar _ hten,
    List.forall_mem_map]
  change (∃ m, readInteger (plainRadix decimal) 64 _ = .ok m ∧ _) ↔ _
  simp only [readInteger_map_digitChar hradix.1 hradix.2
    fun d hd => Nat.lt_trans (hten d hd) (by decide)]
  constructor
  · rintro ⟨m, ⟨hdigits, hsmall, rfl⟩, rfl⟩
    refine ⟨fun d hd => ?_, hsmall, Int64.ofInt_eq_ofNat⟩
    rw [toNat_digitChar d (hten d hd)]
    exact hdigits.lt d hd
  · rintro ⟨hdigits, hsmall, rfl⟩
    refine ⟨_, ⟨⟨hmap, fun d hd => ?_⟩, hsmall, rfl⟩, Int64.ofInt_eq_ofNat⟩
    rw [← toNat_digitChar d (hten d hd)]
    exact hdigits d hd

end Eleven.Text

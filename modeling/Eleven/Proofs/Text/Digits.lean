import Eleven.Proofs.Failure.Outcome
import Eleven.Text.Integer
import Mathlib.Algebra.Group.Nat.Defs
import Mathlib.Data.List.Basic
import Mathlib.Data.Nat.Digits.Defs

/-! Integers without a sign, read from their digits. -/
namespace Eleven.Text

/-- The value of digits, the last of which counts ones. -/
def positional (radix : Nat) (ds : List Nat) : Nat := Nat.ofDigits radix ds.reverse

/-- At least one digit, each below the radix. -/
structure IsDigits (radix : Nat) (ds : List Nat) : Prop where
  ne_nil : ds ≠ []
  lt : ∀ d ∈ ds, d < radix

theorem positional_nil (radix : Nat) : positional radix [] = 0 := Nat.ofDigits_nil

theorem positional_append_singleton (radix : Nat) (ds : List Nat) (d : Nat) :
    positional radix (ds ++ [d]) = positional radix ds * radix + d := by
  rw [positional, List.reverse_append, List.reverse_singleton, List.singleton_append,
    Nat.ofDigits_cons, Nat.mul_comm, Nat.add_comm]
  rfl

theorem positional_le_append {radix : Nat} (hradix : 0 < radix) (ds es : List Nat) :
    positional radix ds ≤ positional radix (ds ++ es) := by
  induction es generalizing ds with
  | nil => rw [List.append_nil]
  | cons e es ih =>
    calc
      positional radix ds ≤ positional radix ds * radix := Nat.le_mul_of_pos_right _ hradix
      _ ≤ positional radix (ds ++ [e]) := by
        rw [positional_append_singleton]
        exact Nat.le_add_right _ e
      _ ≤ positional radix (ds ++ e :: es) := by
        have hrest := ih (ds ++ [e])
        rwa [List.append_assoc, List.singleton_append] at hrest

section Reading

/-- A character has the value of a digit exactly if it is that digit. -/
theorem digitValue?_eq_some_iff {c : Char} {d : Nat} (hd : d < 16) :
    digitValue? c = some d ↔ c = Nat.digitChar d := by
  constructor
  · intro h
    have hchar : ∀ n, c.toNat = n → c = Char.ofNat n := by
      rintro n rfl
      exact (Char.ofNat_toNat c).symm
    unfold digitValue? at h
    split at h
    · next hrange =>
      have hlow : 48 ≤ c.toNat := hrange.1
      have hhigh : c.toNat ≤ 57 := hrange.2
      have hvalue : c.toNat - 48 = d := Option.some.inj h
      have hdigit : ∀ d < 10, Char.ofNat (d + 48) = Nat.digitChar d := by decide
      rw [hchar (d + 48) (by omega), hdigit d (by omega)]
    · split at h
      · next hrange =>
        have hlow : 97 ≤ c.toNat := hrange.1
        have hvalue : c.toNat - 97 + 10 = d := Option.some.inj h
        have hletter : ∀ e < 6, Char.ofNat (e + 97) = Nat.digitChar (e + 10) := by decide
        rw [hchar (d - 10 + 97) (by omega), hletter (d - 10) (by omega),
          Nat.sub_add_cancel (by omega)]
      · cases h
  · rintro rfl
    revert d
    decide

variable {radix limit : Nat}

/-- The first of several digits, and the others. -/
theorem exists_digits_cons_iff (hradix : radix ≤ 16) {c : Char} {cs : List Char}
    {P : List Nat → Prop} :
    (∃ ds, c :: cs = ds.map Nat.digitChar ∧ (∀ d ∈ ds, d < radix) ∧ P ds) ↔
      ∃ d, digitValue? c = some d ∧ d < radix ∧
        ∃ ds, cs = ds.map Nat.digitChar ∧ (∀ d ∈ ds, d < radix) ∧ P (d :: ds) := by
  constructor
  · rintro ⟨ds, hds, hlt, hP⟩
    obtain ⟨d, ds, rfl, hd, hcs⟩ := List.map_eq_cons_iff.mp hds.symm
    obtain ⟨hdlt, hlt⟩ := List.forall_mem_cons.mp hlt
    have hvalue := (digitValue?_eq_some_iff (Nat.lt_of_lt_of_le hdlt hradix)).mpr hd.symm
    exact ⟨d, hvalue, hdlt, ds, hcs.symm, hlt, hP⟩
  · rintro ⟨d, hvalue, hdlt, ds, rfl, hlt, hP⟩
    have hd := (digitValue?_eq_some_iff (Nat.lt_of_lt_of_le hdlt hradix)).mp hvalue
    exact ⟨d :: ds, by rw [List.map_cons, hd], List.forall_mem_cons.mpr ⟨hdlt, hlt⟩, hP⟩

/-- The induction carries the digits that were read, whose value is the number so far. -/
theorem digitsFrom_eq_ok_iff (hpos : 0 < radix) (hradix : radix ≤ 16) {cs : List Char}
    {seen : List Nat} (hseen : positional radix seen ≤ limit) {n : Nat} :
    digitsFrom radix limit (positional radix seen) cs = .ok n ↔
      ∃ ds, cs = ds.map Nat.digitChar ∧ (∀ d ∈ ds, d < radix) ∧
        positional radix (seen ++ ds) ≤ limit ∧ n = positional radix (seen ++ ds) := by
  induction cs generalizing seen with
  | nil =>
    rw [digitsFrom]
    constructor
    · intro h
      cases h
      exact ⟨[], rfl, by simp, by rwa [List.append_nil], by rw [List.append_nil]⟩
    · rintro ⟨ds, hds, -, -, rfl⟩
      obtain rfl : ds = [] := List.map_eq_nil_iff.mp hds.symm
      rw [List.append_nil]
  | cons c cs ih =>
    rw [exists_digits_cons_iff hradix, digitsFrom]
    cases digitValue? c with
    | none => simp
    | some d =>
      simp only [Option.some.injEq, exists_eq_left']
      by_cases hd : radix ≤ d
      · rw [if_pos hd]
        simp [Nat.not_lt.mpr hd]
      · rw [if_neg hd, ← positional_append_singleton]
        by_cases hlimit : limit < positional radix (seen ++ [d])
        · rw [if_pos hlimit]
          constructor
          · intro h
            cases h
          · rintro ⟨-, ds, -, -, hle, -⟩
            have hmore := positional_le_append hpos (seen ++ [d]) ds
            rw [List.append_assoc, List.singleton_append] at hmore
            omega
        · rw [if_neg hlimit, ih (Nat.le_of_not_lt hlimit)]
          simp only [Nat.lt_of_not_le hd, true_and, List.append_assoc, List.singleton_append]

theorem magnitude_eq_ok_iff (hpos : 0 < radix) (hradix : radix ≤ 16) {cs : List Char} {n : Nat} :
    magnitude radix 64 cs = .ok n ↔
      ∃ ds, IsDigits radix ds ∧ cs = ds.map Nat.digitChar ∧ n = positional radix ds ∧
        positional radix ds < 2 ^ 64 := by
  have hread := @digitsFrom_eq_ok_iff radix (1 <<< 64 - 1) hpos hradix cs []
    (by rw [positional_nil]; exact Nat.zero_le _) n
  rw [positional_nil] at hread
  unfold magnitude
  by_cases hcs : cs = []
  · rw [if_pos hcs]
    constructor
    · intro h
      cases h
    · rintro ⟨ds, hds, hmap, -⟩
      exact absurd (List.map_eq_nil_iff.mp (hmap.symm.trans hcs)) hds.ne_nil
  · rw [if_neg hcs, hread]
    constructor
    · rintro ⟨ds, rfl, hlt, hle, hn⟩
      have hne : ds ≠ [] := fun hnil => hcs (List.map_eq_nil_iff.mpr hnil)
      exact ⟨ds, ⟨hne, hlt⟩, rfl, hn, Nat.lt_of_le_pred (by decide) hle⟩
    · rintro ⟨ds, hds, hmap, hn, hsmall⟩
      exact ⟨ds, hmap, hds.lt, Nat.le_pred_of_lt hsmall, hn⟩

/-- Without a sign in front, an integer is read exactly if it is digits and fits. -/
theorem readInteger_eq_ok_iff (hpos : 0 < radix) (hradix : radix ≤ 16) {cs : List Char}
    (hsign : ∀ c ∈ cs, c ≠ '-' ∧ c ≠ '+') {m : Int} :
    readInteger radix 64 cs = .ok m ↔
      ∃ ds, IsDigits radix ds ∧ cs = ds.map Nat.digitChar ∧ positional radix ds < 2 ^ 63 ∧
        m = positional radix ds := by
  unfold readInteger
  split
  · exact absurd rfl (hsign '-' List.mem_cons_self).1
  · exact absurd rfl (hsign '+' List.mem_cons_self).2
  rw [bind_eq_ok]
  simp only [magnitude_eq_ok_iff hpos hradix]
  constructor
  · rintro ⟨k, ⟨ds, hds, hcs, rfl, -⟩, hm⟩
    split at hm
    · next hsmall =>
      cases hm
      exact ⟨ds, hds, hcs, hsmall, rfl⟩
    · cases hm
  · rintro ⟨ds, hds, hcs, hsmall, rfl⟩
    exact ⟨_, ⟨ds, hds, hcs, rfl, by omega⟩, if_pos hsmall⟩

theorem digitChar_ne_sign : ∀ d < 16, Nat.digitChar d ≠ '-' ∧ Nat.digitChar d ≠ '+' := by decide

theorem map_digitChar_inj {ds es : List Nat} (hds : ∀ d ∈ ds, d < 16) (hes : ∀ e ∈ es, e < 16)
    (h : ds.map Nat.digitChar = es.map Nat.digitChar) : ds = es := by
  have hvalues : ∀ xs : List Nat, (∀ x ∈ xs, x < 16) →
      (xs.map Nat.digitChar).map digitValue? = xs.map some := by
    intro xs hxs
    rw [List.map_map]
    exact List.map_congr_left fun x hx => (digitValue?_eq_some_iff (hxs x hx)).mpr rfl
  apply List.map_injective_iff.mpr (Option.some_injective Nat)
  rw [← hvalues ds hds, h, hvalues es hes]

/-- Digits of some radix are read in another if they are digits of that one, too. -/
theorem readInteger_map_digitChar (hpos : 0 < radix) (hradix : radix ≤ 16) {ds : List Nat}
    (hds : ∀ d ∈ ds, d < 16) {m : Int} :
    readInteger radix 64 (ds.map Nat.digitChar) = .ok m ↔
      IsDigits radix ds ∧ positional radix ds < 2 ^ 63 ∧ m = positional radix ds := by
  have hsign : ∀ c ∈ ds.map Nat.digitChar, c ≠ '-' ∧ c ≠ '+' :=
    List.forall_mem_map.mpr fun d hd => digitChar_ne_sign d (hds d hd)
  rw [readInteger_eq_ok_iff hpos hradix hsign]
  constructor
  · rintro ⟨es, hes, hmap, hsmall, rfl⟩
    obtain rfl : ds = es :=
      map_digitChar_inj hds (fun e he => Nat.lt_of_lt_of_le (hes.lt e he) hradix) hmap
    exact ⟨hes, hsmall, rfl⟩
  · rintro ⟨hdigits, hsmall, rfl⟩
    exact ⟨ds, hdigits, rfl, hsmall, rfl⟩

end Reading

section Printing

variable {radix : Nat}

/-- A number is printed as digits that have its value. The last digit comes off the end, so the
induction is on the number without it. -/
theorem exists_digits (hradix : 1 < radix) (n : Nat) :
    ∃ ds, IsDigits radix ds ∧ Nat.toDigits radix n = ds.map Nat.digitChar ∧
      positional radix ds = n := by
  induction n using Nat.strongRecOn with
  | ind n ih =>
    rw [Nat.toDigits_eq_if hradix]
    by_cases hn : n < radix
    · refine ⟨[n], ⟨by simp, by simpa using hn⟩, if_pos hn, ?_⟩
      rw [← List.nil_append [n], positional_append_singleton, positional_nil, Nat.zero_mul,
        Nat.zero_add]
    · obtain ⟨ds, hds, hprint, hvalue⟩ := ih (n / radix) (Nat.div_lt_self (by omega) hradix)
      have hlast : n % radix < radix := Nat.mod_lt n (by omega)
      refine ⟨ds ++ [n % radix], ⟨by simp, ?_⟩, ?_, ?_⟩
      · intro d hd
        rcases List.mem_append.mp hd with hd | hd
        · exact hds.lt d hd
        · rw [List.mem_singleton.mp hd]
          exact hlast
      · rw [if_neg hn, hprint, List.map_append]
        rfl
      · rw [positional_append_singleton, hvalue, Nat.div_add_mod']

theorem digit_of_mem_toDigits {n : Nat} (hradix : 1 < radix) {c : Char}
    (h : c ∈ Nat.toDigits radix n) : ∃ d < radix, c = Nat.digitChar d := by
  obtain ⟨ds, hds, hprint, -⟩ := exists_digits hradix n
  rw [hprint] at h
  obtain ⟨d, hd, rfl⟩ := List.mem_map.mp h
  exact ⟨d, hds.lt d hd, rfl⟩

end Printing

end Eleven.Text

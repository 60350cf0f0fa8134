import Eleven.Lazy.Scope
import Eleven.Proofs.Lazy.Folding
import Mathlib.Algebra.Group.Nat.Defs

/-! Repetition is exact: a pattern is repeated as often as the count says, or refused if the list would
be too long, and the test for that is right for every count and every pattern. -/
namespace Eleven

/-- What is repeated for an element: the element alone, or all elements of a list. -/
inductive IsPattern : Datum → List Int64 → Prop
  | int (x : Int64) : IsPattern (.int x) [x]
  | list (p : List Int64) : IsPattern (.list p) p

/-- A list is made of `n` whole patterns. -/
structure Repeats (p : List Int64) (n : Int) (xs : List Int64) : Prop where
  length_eq : (xs.length : Int) = n * p.length
  getElem?_eq : ∀ i < xs.length, xs[i]? = p[i % p.length]?

/-- A count that is not negative, and for which neither the count nor the number of elements is past
the bound. -/
def RoomFor (n : Int) (width : Nat) : Prop := 0 ≤ n ∧ n ≤ maxRepeat ∧ n * width ≤ maxRepeat

instance (n : Int) (width : Nat) : Decidable (RoomFor n width) :=
  inferInstanceAs (Decidable (0 ≤ n ∧ n ≤ maxRepeat ∧ n * width ≤ maxRepeat))

/-- The test for too many elements on 64-bit integers. It divides the bound and multiplies nothing. -/
def pastBound (n width : Int64) : Bool :=
  n > Int64.ofNat maxRepeat || (width > 0 && n > Int64.ofNat maxRepeat / width)

theorem IsPattern.pattern_eq {d : Datum} {p : List Int64} (h : IsPattern d p) :
    d.pattern = .ok p := by
  cases h <;> rfl

section Patterns

theorem length_flatten_replicate (n : Nat) (p : List Int64) :
    (List.replicate n p).flatten.length = n * p.length := by
  simp

/-- The induction takes one pattern off the front, and with it a multiple of the width off the
index. -/
theorem getElem?_flatten_replicate {n : Nat} {p : List Int64} {i : Nat} (hi : i < n * p.length) :
    (List.replicate n p).flatten[i]? = p[i % p.length]? := by
  induction n generalizing i with
  | zero => omega
  | succ n ih =>
    rw [List.replicate_succ, List.flatten_cons, List.getElem?_append]
    by_cases hfirst : i < p.length
    · rw [if_pos hfirst, Nat.mod_eq_of_lt hfirst]
    · have hrest : i - p.length < n * p.length := by
        rw [Nat.succ_mul] at hi
        omega
      rw [if_neg hfirst, ih hrest, ← Nat.mod_eq_sub_mod (Nat.le_of_not_lt hfirst)]

theorem repeats_replicate {n : Int} (hn : 0 ≤ n) (p : List Int64) :
    Repeats p n (List.replicate n.toNat p).flatten := by
  constructor
  · rw [length_flatten_replicate, Int.natCast_mul, Int.toNat_of_nonneg hn]
  · intro i hi
    rw [length_flatten_replicate] at hi
    exact getElem?_flatten_replicate hi

end Patterns

section Bound

variable {n : Int64} {p : List Int64}

theorem repeatPattern_of_roomFor (h : RoomFor n.toInt p.length) :
    repeatPattern n p = .ok (.list (List.replicate n.toInt.toNat p).flatten) := by
  obtain ⟨hn, hcount, hproduct⟩ := h
  rw [repeatPattern_eq hn]
  exact if_neg (by omega)

theorem repeatPattern_of_not_roomFor (hn : 0 ≤ n.toInt) (h : ¬ RoomFor n.toInt p.length) :
    repeatPattern n p = .error (.fault (.countTooLarge n p.length)) := by
  rw [repeatPattern_eq hn]
  apply if_pos
  unfold RoomFor at h
  omega

/-- The test on 64-bit integers refuses what there is no room for, and nothing else. -/
theorem pastBound_iff (hn : 0 ≤ n.toInt) {width : Nat} (hwidth : width < 2 ^ 63) :
    pastBound n (Int64.ofNat width) = true ↔ ¬ RoomFor n.toInt width := by
  obtain ⟨k, hk⟩ := Int.eq_ofNat_of_zero_le hn
  have hbound : (Int64.ofNat maxRepeat).toInt = maxRepeat := by decide
  have hw : (Int64.ofNat width).toInt = width := Int64.toInt_ofNat_of_lt hwidth
  have hquotient : (Int64.ofNat maxRepeat / Int64.ofNat width).toInt =
      ((maxRepeat / width : Nat) : Int) := by
    rw [Int64.toInt_div_of_ne_left _ _ (by decide), hbound, hw]
    rfl
  have htest : pastBound n (Int64.ofNat width) = true ↔
      k > maxRepeat ∨ width > 0 ∧ k > maxRepeat / width := by
    simp only [pastBound, Bool.or_eq_true, Bool.and_eq_true, decide_eq_true_eq, gt_iff_lt,
      Int64.lt_iff_toInt_lt, hbound, hw, hquotient, hk, Int64.toInt_zero]
    omega
  have hproduct : n.toInt * width = ((k * width : Nat) : Int) := by
    rw [hk, Int.natCast_mul]
  rw [htest, maxRepeat_div_lt_iff, RoomFor, hproduct]
  omega

/-- Where there is room the product of the count and the width is exact in 64 bits. With a count of
zero the width may be anything. -/
theorem toInt_mul_of_roomFor {width : Nat} (h : RoomFor n.toInt width) :
    (n * Int64.ofNat width).toInt = n.toInt * width := by
  obtain ⟨hn, -, hproduct⟩ := h
  obtain ⟨k, hk⟩ := Int.eq_ofNat_of_zero_le hn
  have hfits : k * width ≤ 65536 := by
    rw [hk, ← Int.natCast_mul] at hproduct
    exact Int.ofNat_le.mp hproduct
  by_cases hzero : k = 0
  · have hn0 : n = 0 := by
      rw [← toInt_eq_zero, hk, hzero]
      rfl
    rw [hn0, Int64.zero_mul, Int64.toInt_zero, Int.zero_mul]
  · have hwidth : width ≤ k * width := Nat.le_mul_of_pos_left width (Nat.pos_of_ne_zero hzero)
    rw [Int64.toInt_mul, Int64.toInt_ofNat_of_lt (by omega), hk, ← Int.natCast_mul]
    exact Int.bmod_eq_of_le (by omega) (by omega)

end Bound

namespace Lazy

variable {σ : Type} (look : String → Attempt σ Datum)

section Runs

variable {look} {count elem : Lazy} {s s₁ s₂ : σ} {n : Int64}

/-- A negative count fails before the element is looked at. -/
theorem run_eval_repeated_of_neg (hcount : (count.resolveInt look).run s = (.ok n, s₁))
    (hn : n.toInt < 0) :
    ((repeated count elem).eval look).run s = (.error (.fault (.negativeCount n)), s₁) := by
  have hneg : n < 0 := Int64.lt_iff_toInt_lt.mpr hn
  rw [eval_repeated, Attempt.run_bind_ok hcount, if_pos hneg]
  rfl

theorem run_eval_repeated (hcount : (count.resolveInt look).run s = (.ok n, s₁))
    (hn : 0 ≤ n.toInt) {d : Datum} {p : List Int64}
    (helem : (elem.resolve look .any).run s₁ = (.ok d, s₂)) (hd : IsPattern d p) :
    ((repeated count elem).eval look).run s = (repeatPattern n p, s₂) := by
  have hneg : ¬ n < 0 := by
    rw [Int64.lt_iff_toInt_lt]
    exact Int.not_lt.mpr hn
  rw [resolve_any] at helem
  rw [eval_repeated, Attempt.run_bind_ok hcount, if_neg hneg, Attempt.run_bind_ok helem,
    hd.pattern_eq]
  rfl

variable {v : Lazy} {expected : Kind}

theorem outcome_resolve_of_error {e : Failure} (h : (v.eval look).run s = (.error e, s₁)) :
    (v.resolve look expected).outcome s = .error e := by
  rw [resolve, Attempt.outcome, Attempt.run_bind_error h]

/-- A list passes where a list or anything is expected. -/
theorem outcome_resolve_of_list (hexpected : expected ∈ [Kind.any, Kind.list]) {xs : List Int64}
    (h : (v.eval look).run s = (.ok (.list xs), s₁)) :
    (v.resolve look expected).outcome s = .ok (.list xs) := by
  have hexpect : (Datum.list xs).expect expected = .ok (.list xs) := by
    simp only [List.mem_cons, List.not_mem_nil, or_false] at hexpected
    rcases hexpected with rfl | rfl <;> rfl
  rw [resolve, Attempt.outcome, Attempt.run_bind_ok h, hexpect]
  rfl

end Runs

/-- Where a count comes to `n` and an element to the pattern `p`, repetition comes to a list exactly
if there is room for it, and then to `n` whole patterns; a negative count and a list that is too long
are refused for what they are. The test on 64-bit integers agrees with the bound on the unbounded
product, which is exact in 64 bits wherever it is taken. -/
theorem repetition_exact {count : Lazy} {s s₁ : σ} {n : Int64}
    (hcount : (count.resolveInt look).run s = (.ok n, s₁)) (elem : Lazy) {expected : Kind}
    (hexpected : expected ∈ [Kind.any, Kind.list]) :
    (n.toInt < 0 → ((repeated count elem).resolve look expected).outcome s =
        .error (.fault (.negativeCount n)) ∧
      (Failure.fault (.negativeCount n)).is .negativeCount = true) ∧
    ∀ d p s₂, (elem.resolve look .any).run s₁ = (.ok d, s₂) → IsPattern d p →
      ((∃ r, ((repeated count elem).resolve look expected).outcome s = .ok r) ↔
        RoomFor n.toInt p.length) ∧
      (RoomFor n.toInt p.length →
        (∃ xs, ((repeated count elem).resolve look expected).outcome s = .ok (.list xs) ∧
          Repeats p n.toInt xs) ∧
        (n * Int64.ofNat p.length).toInt = n.toInt * p.length) ∧
      (0 ≤ n.toInt → ¬ RoomFor n.toInt p.length →
        ((repeated count elem).resolve look expected).outcome s =
          .error (.fault (.countTooLarge n p.length)) ∧
        (Failure.fault (.countTooLarge n p.length)).is .countTooLarge = true) ∧
      (0 ≤ n.toInt → p.length < 2 ^ 63 →
        (pastBound n (Int64.ofNat p.length) = true ↔ ¬ RoomFor n.toInt p.length)) := by
  have hnegative : n.toInt < 0 → ((repeated count elem).resolve look expected).outcome s =
      .error (.fault (.negativeCount n)) :=
    fun hn => outcome_resolve_of_error (run_eval_repeated_of_neg hcount hn)
  refine ⟨fun hn => ⟨hnegative hn, rfl⟩, ?_⟩
  intro d p s₂ helem hd
  have hmade : RoomFor n.toInt p.length → ∃ xs,
      ((repeated count elem).resolve look expected).outcome s = .ok (.list xs) ∧
        Repeats p n.toInt xs := by
    intro hroom
    have hrun := run_eval_repeated hcount hroom.1 helem hd
    rw [repeatPattern_of_roomFor hroom] at hrun
    exact ⟨_, outcome_resolve_of_list hexpected hrun, repeats_replicate hroom.1 p⟩
  have hrefused : 0 ≤ n.toInt → ¬ RoomFor n.toInt p.length →
      ((repeated count elem).resolve look expected).outcome s =
        .error (.fault (.countTooLarge n p.length)) := by
    intro hn hroom
    have hrun := run_eval_repeated hcount hn helem hd
    rw [repeatPattern_of_not_roomFor hn hroom] at hrun
    exact outcome_resolve_of_error hrun
  refine ⟨⟨?_, ?_⟩, fun hroom => ⟨hmade hroom, toInt_mul_of_roomFor hroom⟩,
    fun hn hroom => ⟨hrefused hn hroom, rfl⟩, fun hn hwidth => pastBound_iff hn hwidth⟩
  · rintro ⟨r, hr⟩
    by_cases hroom : RoomFor n.toInt p.length
    · exact hroom
    · rcases Int.lt_or_le n.toInt 0 with hn | hn
      · rw [hnegative hn] at hr
        cases hr
      · rw [hrefused hn hroom] at hr
        cases hr
  · intro hroom
    obtain ⟨xs, hxs, -⟩ := hmade hroom
    exact ⟨_, hxs⟩

section Counts

/-- A small count, and one whose product with eight wraps to zero. -/
def countScope : Scope := Scope.ofInts [("TWO", 2), ("HUGE", 0x2000000000000000)]

theorem repetition_exact_wrapping :
    ((symbol "TWO").resolveInt Scope.lookup).run countScope = (.ok 2, countScope) ∧
      (∃ xs, ((repeated (symbol "TWO") (list [7, 9])).resolve Scope.lookup .any).outcome countScope =
        .ok (.list xs) ∧ Repeats [7, 9] 2 xs) ∧
      ((symbol "HUGE").resolveInt Scope.lookup).run countScope =
        (.ok 0x2000000000000000, countScope) ∧
      (0x2000000000000000 : Int64) * 8 = 0 ∧
      ((repeated (symbol "HUGE") (list [1, 2, 3, 4, 5, 6, 7, 8])).resolve Scope.lookup
        .list).outcome countScope = .error (.fault (.countTooLarge 0x2000000000000000 8)) := by
  have htwo : ((symbol "TWO").resolveInt Scope.lookup).run countScope = (.ok 2, countScope) := rfl
  have hhuge : ((symbol "HUGE").resolveInt Scope.lookup).run countScope =
      (.ok 0x2000000000000000, countScope) := rfl
  have hany : Kind.any ∈ [Kind.any, Kind.list] := by decide
  have hlist : Kind.list ∈ [Kind.any, Kind.list] := by decide
  obtain ⟨-, hpair⟩ := repetition_exact Scope.lookup htwo (list [7, 9]) hany
  obtain ⟨-, hwide⟩ := repetition_exact Scope.lookup hhuge (list [1, 2, 3, 4, 5, 6, 7, 8]) hlist
  obtain ⟨-, hmade, -, -⟩ := hpair (.list [7, 9]) [7, 9] countScope rfl (.list _)
  obtain ⟨-, -, hrefused, -⟩ := hwide (.list [1, 2, 3, 4, 5, 6, 7, 8]) _ countScope rfl (.list _)
  exact ⟨htwo, (hmade (by decide)).1, hhuge, by decide, (hrefused (by decide) (by decide)).1⟩

end Counts

end Lazy

end Eleven

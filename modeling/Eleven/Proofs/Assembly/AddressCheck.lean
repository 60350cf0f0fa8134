import Eleven.Proofs.Assembly.Layout
import Eleven.Proofs.Assembly.Located
import Mathlib.Algebra.Group.Nat.Defs

/-! The check of addresses before stores. The end of a store is computed in 64 bits, so the check is
right as long as that end does not wrap. A store that wraps is let through and finds no room. -/
namespace Eleven.Assembly

/-- A store that a link has come to: its bytes and its address, and the memory left by the stores
before it. -/
structure Reached where
  memory : Array UInt8
  write : Write
  entry : Entry

/-- The stores a link comes to, in order. None follows one that fails. -/
def reachedFrom : Array UInt8 → SymbolTable → List Write → List Reached
  | _, _, [] => []
  | memory, t, w :: ws =>
    match (resolveWrite w).run t with
    | (.error _, _) => []
    | (.ok e, t) =>
      ⟨memory, w, e⟩ :: match store w.position memory e.2 e.1 with
        | .error _ => []
        | .ok memory => reachedFrom memory t ws

/-- The stores that linking a session comes to. -/
def Session.reached (s : Session) : List Reached :=
  match SymbolTable.resolveAll.run s.symbols with
  | (.error _, _) => []
  | (.ok _, t) => reachedFrom #[] t s.writes

/-- Their bytes and addresses. -/
def Session.entries (s : Session) : List Entry := s.reached.map (·.entry)

namespace Entry

/-- The store lies in the address space. -/
def Inside (e : Entry) : Prop := 0 ≤ e.2.toInt ∧ e.last ≤ 0o200000

/-- The check does not refuse the store. -/
def LetThrough (e : Entry) : Prop :=
  ¬ (e.2 < 0 ∨ e.2 + Int64.ofNat e.1.length > Int64.ofNat Machine.addressSpace)

/-- The end of the store is no 64-bit number. -/
def Wraps (e : Entry) : Prop := 2 ^ 63 ≤ e.last

instance (e : Entry) : Decidable e.Inside :=
  inferInstanceAs (Decidable (0 ≤ e.2.toInt ∧ e.last ≤ 0o200000))

instance (e : Entry) : Decidable e.LetThrough := inferInstanceAs (Decidable (¬ (_ ∨ _)))

instance (e : Entry) : Decidable e.Wraps := inferInstanceAs (Decidable (2 ^ 63 ≤ e.last))

variable {e : Entry}

theorem letThrough_iff_toInt :
    e.LetThrough ↔ 0 ≤ e.2.toInt ∧ (e.2 + Int64.ofNat e.1.length).toInt ≤ 0o200000 := by
  unfold LetThrough
  rw [not_or, Int64.not_lt, Int64.le_iff_toInt_le, gt_iff_lt, Int64.not_lt, Int64.le_iff_toInt_le]
  rfl

theorem letThrough_iff_inside (h : ¬ e.Wraps) : e.LetThrough ↔ e.Inside := by
  rw [letThrough_iff_toInt, Inside]
  apply and_congr_right
  intro hlow
  have hlast : (e.2 + Int64.ofNat e.1.length).toInt = e.last :=
    Machine.toInt_add_ofNat hlow (Int.not_le.mp h)
  rw [hlast]

/-- An end that wraps looks negative. -/
theorem toInt_end_of_wraps (hlen : e.1.length < 2 ^ 63) (h : e.Wraps) :
    (e.2 + Int64.ofNat e.1.length).toInt = e.last - 2 ^ 64 :=
  Machine.toInt_add_ofNat_of_wraps hlen h

/-- The check lets through what lies in the address space, and also what wraps. -/
theorem letThrough_iff (hlen : e.1.length < 2 ^ 63) : e.LetThrough ↔ e.Inside ∨ e.Wraps := by
  by_cases hwraps : e.Wraps
  · have hend : 2 ^ 63 ≤ e.2.toInt + e.1.length := hwraps
    have hlast : e.last = e.2.toInt + e.1.length := rfl
    have hhigh : e.2.toInt < 2 ^ 63 := e.2.toInt_lt
    have hthrough : e.LetThrough := by
      rw [letThrough_iff_toInt, toInt_end_of_wraps hlen hwraps]
      omega
    exact iff_of_true hthrough (.inr hwraps)
  · rw [letThrough_iff_inside hwraps]
    exact (or_iff_left hwraps).symm

end Entry

section Storing

variable {pos : Position} {memory : Array UInt8} {e : Entry}

theorem store_of_letThrough (h : e.LetThrough) :
    store pos memory e.2 e.1 = storeFrom pos
      (growTo (e.2 + Int64.ofNat e.1.length).toNatClampNeg memory) e.2.toNatClampNeg e.1 := by
  unfold Entry.LetThrough at h
  rw [store, if_neg h]

theorem store_of_not_letThrough (h : ¬ e.LetThrough) :
    store pos memory e.2 e.1 = .error ((Problem.addressOutside e.2).failure pos) := by
  unfold Entry.LetThrough at h
  rw [store, if_pos (not_not.mp h)]

/-- Bytes without room for all of them break off. -/
theorem breaksOff_of_storeFrom {bs : List Int64} (hbs : ∀ b ∈ bs, IsByte b) (hne : bs ≠ [])
    {n : Nat} (hroom : memory.size < n + bs.length) :
    ∃ f, storeFrom pos memory n bs = .error f ∧ BreaksOff f := by
  induction bs generalizing memory n with
  | nil => exact absurd rfl hne
  | cons b bs ih =>
    rw [List.forall_mem_cons] at hbs
    rw [List.length_cons] at hroom
    rw [storeFrom, if_neg (isByte_iff.mp hbs.1)]
    by_cases hn : n < memory.size
    · have hrest : bs ≠ [] := by
        rintro rfl
        rw [List.length_nil] at hroom
        omega
      rw [if_pos hn]
      apply ih hbs.2 hrest
      rw [Array.size_setIfInBounds]
      omega
    · rw [if_neg hn]
      exact ⟨_, rfl, _, _, rfl⟩

/-- A store that wraps finds memory as it was, and that is never as large as its address. -/
theorem breaksOff_of_wraps (hlen : e.1.length < 2 ^ 63) (hsize : memory.size ≤ 0o200000)
    (hbs : ∀ b ∈ e.1, IsByte b) (hwraps : e.Wraps) :
    ∃ f, store pos memory e.2 e.1 = .error f ∧ BreaksOff f := by
  have hend : 2 ^ 63 ≤ e.2.toInt + e.1.length := hwraps
  have hlast : e.last = e.2.toInt + e.1.length := rfl
  have hhigh : e.2.toInt < 2 ^ 63 := e.2.toInt_lt
  have hgrown : (e.2 + Int64.ofNat e.1.length).toNatClampNeg = 0 := by
    rw [Int64.toNatClampNeg, Entry.toInt_end_of_wraps hlen hwraps]
    omega
  have hne : e.1 ≠ [] := by
    intro hnil
    rw [hnil, List.length_nil] at hend
    omega
  rw [store_of_letThrough ((Entry.letThrough_iff hlen).mpr (.inr hwraps)), hgrown]
  apply breaksOff_of_storeFrom hbs hne
  rw [size_growTo, Int64.toNatClampNeg]
  omega

end Storing

section Reaching

variable {memory : Array UInt8} {t : SymbolTable} {ws : List Write} {r : Reached} {s : Session}
  {f : Failure}

/-- What becomes of the first store, and of those behind it if it succeeds. -/
theorem mem_reachedFrom_cons {w : Write} (hr : r ∈ reachedFrom memory t (w :: ws)) :
    ∃ e t', (resolveWrite w).run t = (.ok e, t') ∧
      (r = ⟨memory, w, e⟩ ∨ ∃ memory', store w.position memory e.2 e.1 = .ok memory' ∧
        r ∈ reachedFrom memory' t' ws) := by
  unfold reachedFrom at hr
  rcases hrun : (resolveWrite w).run t with ⟨f | e, t'⟩
  · rw [hrun] at hr
    cases hr
  · rw [hrun] at hr
    refine ⟨e, t', rfl, (List.mem_cons.mp hr).imp_right fun hr => ?_⟩
    cases hstore : store w.position memory e.2 e.1 with
    | error f =>
      rw [hstore] at hr
      cases hr
    | ok memory' =>
      rw [hstore] at hr
      exact ⟨memory', rfl, hr⟩

/-- The stores all fail with the one that fails. -/
theorem outcome_storeAll_of_reached (hr : r ∈ reachedFrom memory t ws)
    (hf : store r.write.position r.memory r.entry.2 r.entry.1 = .error f) :
    (storeAll memory ws).outcome t = .error f := by
  induction ws generalizing memory t with
  | nil => cases hr
  | cons w ws ih =>
    obtain ⟨⟨bytes, address⟩, t', hrun, hr⟩ := mem_reachedFrom_cons hr
    rw [Attempt.outcome, storeAll, Attempt.run_bind_ok hrun]
    rcases hr with rfl | ⟨memory', hstore, hr⟩
    · dsimp only at hf ⊢
      rw [hf]
      rfl
    · dsimp only at hstore ⊢
      rw [hstore]
      exact ih hr

theorem size_of_reached (hsize : memory.size ≤ 0o200000) (hr : r ∈ reachedFrom memory t ws) :
    r.memory.size ≤ 0o200000 := by
  induction ws generalizing memory t with
  | nil => cases hr
  | cons w ws ih =>
    obtain ⟨e, t', -, rfl | ⟨memory', hstore, hr⟩⟩ := mem_reachedFrom_cons hr
    · exact hsize
    · obtain ⟨hlow, hhigh, -, rfl⟩ := store_eq_ok hsize hstore
      refine ih ?_ hr
      rw [size_overwrite, List.length_map]
      omega

theorem mem_reached (hr : r ∈ s.reached) :
    ∃ t, SymbolTable.resolveAll.run s.symbols = (.ok (), t) ∧ r ∈ reachedFrom #[] t s.writes := by
  unfold Session.reached at hr
  rcases hall : SymbolTable.resolveAll.run s.symbols with ⟨f | ⟨⟩, t⟩
  · rw [hall] at hr
    cases hr
  · rw [hall] at hr
    exact ⟨t, rfl, hr⟩

/-- A link fails with the store that fails. -/
theorem outcome_linkImage_of_reached (hr : r ∈ s.reached)
    (hf : store r.write.position r.memory r.entry.2 r.entry.1 = .error f) :
    Session.linkImage.outcome s = .error f := by
  obtain ⟨t, hall, hr⟩ := mem_reached hr
  have hstores := outcome_storeAll_of_reached hr hf
  rcases hrun : (storeAll #[] s.writes).run t with ⟨x, t'⟩
  rw [Attempt.outcome, hrun] at hstores
  cases hstores
  rw [Attempt.outcome, Session.linkImage, Attempt.run_bind_ok (Attempt.run_get s),
    Attempt.run_bind_ok (run_onSymbols hall),
    Attempt.run_bind_error (run_onSymbols (s := s.setSymbols t) hrun)]

end Reaching

/-- A store that a link comes to is let through exactly if it lies in the address space or its end
wraps. In the first case there is room for every byte. A store that lies outside without wrapping
makes the link fail with a report at its place. One that wraps makes it break off. A store has no
more bytes than a 64-bit number can count. -/
theorem link_address_check (s : Session) (r : Reached) (hr : r ∈ s.reached)
    (hlen : r.entry.1.length < 2 ^ 63) :
    (r.entry.LetThrough ↔ r.entry.Inside ∨ r.entry.Wraps) ∧
    (r.entry.Inside → ∀ i < r.entry.1.length, r.entry.2.toInt + i <
      (growTo (r.entry.2 + Int64.ofNat r.entry.1.length).toNatClampNeg r.memory).size) ∧
    (¬ r.entry.Wraps → ¬ r.entry.Inside → ∃ f, Session.linkImage.outcome s = .error f ∧
      f = (Problem.addressOutside r.entry.2).failure r.write.position ∧ f.is .outOfRange) ∧
    (r.entry.Wraps → (∀ b ∈ r.entry.1, IsByte b) → ∃ f, Session.linkImage.outcome s = .error f ∧
      BreaksOff f) := by
  obtain ⟨t, -, hreached⟩ := mem_reached hr
  have hsize := size_of_reached (by simp) hreached
  refine ⟨Entry.letThrough_iff hlen, ?_, ?_, ?_⟩
  · intro hinside i hi
    have hlow : 0 ≤ r.entry.2.toInt := hinside.1
    have hhigh : r.entry.2.toInt + r.entry.1.length ≤ 0o200000 := hinside.2
    rw [size_growTo, Int64.toNatClampNeg, Machine.toInt_add_ofNat hlow (by omega)]
    omega
  · intro hwraps hinside
    have hrefused : ¬ r.entry.LetThrough := by
      rw [Entry.letThrough_iff_inside hwraps]
      exact hinside
    exact ⟨_, outcome_linkImage_of_reached hr (store_of_not_letThrough hrefused), rfl, rfl⟩
  · intro hwraps hbytes
    have hbroken : ∃ f, store r.write.position r.memory r.entry.2 r.entry.1 = .error f ∧
        BreaksOff f := breaksOff_of_wraps hlen hsize hbytes hwraps
    obtain ⟨f, hf, hbreaks⟩ := hbroken
    exact ⟨f, outcome_linkImage_of_reached hr hf, hbreaks⟩

/-- A byte at the last 64-bit address. -/
def byteAtEnd : Session :=
  .after noFiles [.addSource "input" ".LINK 0x7FFFFFFFFFFFFFFF\n.BYTE 1"]

/-- A byte in its place, and a text that begins two bytes before the end of the 64-bit addresses. -/
def textAcrossEnd : Session :=
  .after noFiles
    [.addSource "input" ".LINK 0\n.BYTE 1\n.LINK 0x7FFFFFFFFFFFFFFE\n.ASCII \"abc\"\n"]

theorem stores_at_end :
    byteAtEnd.reached.map (fun r => (r.entry, r.memory)) = [(([1], 0x7FFFFFFFFFFFFFFF), #[])] ∧
      textAcrossEnd.entries = [([1], 0), ([97, 98, 99], 0x7FFFFFFFFFFFFFFE)] := by
  decide +kernel

/-- The check lets a byte at the last address through, and the link breaks off. -/
theorem byteAtEnd_let_through :
    ∃ r ∈ byteAtEnd.reached, r.entry = ([1], 0x7FFFFFFFFFFFFFFF) ∧ r.entry.LetThrough ∧
      ¬ r.entry.Inside ∧ ∃ f, Session.linkImage.outcome byteAtEnd = .error f ∧ BreaksOff f := by
  obtain ⟨hentries, -⟩ := stores_at_end
  obtain ⟨r, hr, hrs⟩ := List.mem_map.mp (hentries ▸ List.mem_singleton_self _)
  obtain ⟨hentry, hmemory⟩ := Prod.mk.inj hrs
  have hbytes : ∀ b ∈ r.entry.1, IsByte b := by
    rw [hentry, List.forall_mem_singleton]
    decide
  have hbroken : ∃ f, store r.write.position r.memory r.entry.2 r.entry.1 = .error f ∧
      BreaksOff f :=
    breaksOff_of_wraps (by rw [hentry]; decide) (by rw [hmemory]; decide) hbytes
      (by rw [hentry]; decide)
  obtain ⟨f, hf, hbreaks⟩ := hbroken
  refine ⟨r, hr, hentry, ?_, ?_, f, outcome_linkImage_of_reached hr hf, hbreaks⟩
  · rw [hentry]
    decide
  · rw [hentry]
    decide

theorem link_address_check_textAcrossEnd :
    textAcrossEnd.entries = [([1], 0), ([97, 98, 99], 0x7FFFFFFFFFFFFFFE)] ∧
    ∃ f, Session.linkImage.outcome textAcrossEnd = .error f ∧ BreaksOff f := by
  obtain ⟨-, hentries⟩ := stores_at_end
  have hmem : (([97, 98, 99], 0x7FFFFFFFFFFFFFFE) : Entry) ∈
      textAcrossEnd.entries := by
    rw [hentries]
    decide
  obtain ⟨r, hr, hentry⟩ := List.mem_map.mp hmem
  have hbytes : ∀ b ∈ r.entry.1, IsByte b := by
    rw [hentry, List.forall_mem_cons, List.forall_mem_cons, List.forall_mem_singleton]
    decide
  obtain ⟨-, -, -, hbreaks⟩ := link_address_check textAcrossEnd r hr (by rw [hentry]; decide)
  exact ⟨hentries, hbreaks (by rw [hentry]; decide) hbytes⟩

end Eleven.Assembly

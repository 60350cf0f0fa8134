import Eleven.Proofs.Assembly.AddressCheck
import Mathlib.Data.List.Induction

/-! Where an image ends. Memory grows to the end of every store, also of one without bytes, so the
image ends at its last byte exactly as long as no empty store lies further on. -/
namespace Eleven.Assembly

section Ends

variable {es : List Entry} {e : Entry} {b : Int}

/-- The end of an image is the least address that no store passes. -/
theorem imageEnd_le_iff : imageEnd es ≤ b ↔ 0 ≤ b ∧ ∀ e ∈ es, e.last ≤ b := by
  induction es using List.reverseRecOn with
  | nil => exact ⟨fun h => ⟨h, by simp⟩, fun h => h.1⟩
  | append_singleton es e ih =>
    rw [imageEnd_concat, Int.max_le, ih, and_assoc, List.forall_mem_append,
      List.forall_mem_singleton]

theorem imageEnd_nonneg : 0 ≤ imageEnd es := (imageEnd_le_iff.1 (Int.le_refl _)).1

theorem last_le_imageEnd (he : e ∈ es) : e.last ≤ imageEnd es :=
  (imageEnd_le_iff.1 (Int.le_refl _)).2 e he

/-- The address behind the last byte that is stored. -/
def bytesEnd (es : List Entry) : Int := imageEnd (es.filter fun e => !e.1.isEmpty)

theorem bytesEnd_le_iff :
    bytesEnd es ≤ b ↔ 0 ≤ b ∧ ∀ e ∈ es, e.1 ≠ [] → e.last ≤ b := by
  rw [bytesEnd, imageEnd_le_iff]
  simp only [List.mem_filter, Bool.not_eq_true', List.isEmpty_eq_false_iff, and_imp]

theorem bytesEnd_le_imageEnd : bytesEnd es ≤ imageEnd es :=
  bytesEnd_le_iff.2 ⟨imageEnd_nonneg, fun _ he _ => last_le_imageEnd he⟩

/-- A store puts a byte at each address from its own to its end. -/
theorem isSome_byteAt?_iff (a : Int) :
    (e.byteAt? a).isSome ↔ e.2.toInt ≤ a ∧ a < e.last := by
  unfold Entry.byteAt? Entry.last
  by_cases hbefore : a < e.2.toInt
  · rw [if_pos hbefore]
    simp
    omega
  · rw [if_neg hbefore, isSome_getElem?]
    omega

/-- The last byte stands before the end. -/
theorem exists_byteAt?_bytesEnd (h : 0 < bytesEnd es) :
    ∃ e ∈ es, (e.byteAt? (bytesEnd es - 1)).isSome := by
  obtain ⟨e, he, hne, hlast⟩ : ∃ e ∈ es, e.1 ≠ [] ∧ bytesEnd es - 1 < e.last := by
    by_contra hnone
    have hpassed : bytesEnd es ≤ bytesEnd es - 1 := bytesEnd_le_iff.2 ⟨by omega,
      fun e he hne => Int.not_lt.mp fun hlast => hnone ⟨e, he, hne, hlast⟩⟩
    omega
  have hend : e.last ≤ bytesEnd es := (bytesEnd_le_iff.1 (Int.le_refl _)).2 e he hne
  have hlength : 0 < e.1.length := List.length_pos_iff.mpr hne
  refine ⟨e, he, (isSome_byteAt?_iff _).mpr ?_⟩
  unfold Entry.last at hlast hend ⊢
  omega

theorem max_imageEnd_eq_iff :
    max 0 (imageEnd es - b) = max 0 (bytesEnd es - b) ↔ imageEnd es ≤ max b (bytesEnd es) := by
  have hends : bytesEnd es ≤ imageEnd es := bytesEnd_le_imageEnd
  omega

/-- Only empty stores lie beyond the last byte. -/
theorem imageEnd_le_max_iff (hb : 0 ≤ b) :
    imageEnd es ≤ max b (bytesEnd es) ↔
      ∀ e ∈ es, e.1 = [] → e.2.toInt ≤ max b (bytesEnd es) := by
  have hlast (e : Entry) (hnil : e.1 = []) : e.last = e.2.toInt := by
    rw [Entry.last, hnil, List.length_nil]
    omega
  rw [imageEnd_le_iff]
  constructor
  · intro h e he hnil
    rw [← hlast e hnil]
    exact h.2 e he
  · intro h
    refine ⟨by omega, fun e he => ?_⟩
    by_cases hnil : e.1 = []
    · rw [hlast e hnil]
      exact h e he hnil
    · have hend : e.last ≤ bytesEnd es := (bytesEnd_le_iff.1 (Int.le_refl _)).2 e he hnil
      omega

end Ends

section Linking

variable {es : List Entry} {memory memory' : Array UInt8} {t t' : SymbolTable} {ws : List Write}

theorem reachedFrom_cons {w : Write} {e : Entry} (hrun : (resolveWrite w).run t = (.ok e, t'))
    (hstore : store w.position memory e.2 e.1 = .ok memory') :
    reachedFrom memory t (w :: ws) = ⟨memory, w, e⟩ :: reachedFrom memory' t' ws := by
  rw [reachedFrom, hrun]
  dsimp only
  rw [hstore]

/-- Stores that succeed are all reached, and memory holds what they leave. -/
theorem LaidOut.storeAll (hl : LaidOut es memory)
    (h : (storeAll memory ws).run t = (.ok memory', t')) :
    (reachedFrom memory t ws).map (·.write) = ws ∧
      LaidOut (es ++ (reachedFrom memory t ws).map (·.entry)) memory' := by
  induction ws generalizing es memory t with
  | nil =>
    cases h
    refine ⟨rfl, ?_⟩
    change LaidOut (es ++ []) memory'
    rwa [List.append_nil]
  | cons w ws ih =>
    unfold Assembly.storeAll at h
    obtain ⟨⟨bytes, address⟩, u, hrun, h⟩ := Attempt.run_bind_eq_ok.mp h
    obtain ⟨m, u', hlift, h⟩ := Attempt.run_bind_eq_ok.mp h
    rw [Attempt.run_liftM] at hlift
    obtain ⟨hstore, rfl⟩ := Prod.mk.inj hlift
    have hlaid : LaidOut (es ++ [(bytes, address)]) m := hl.store hstore
    obtain ⟨hwrites, hlaid'⟩ := ih hlaid h
    rw [reachedFrom_cons hrun hstore, List.map_cons, List.map_cons, hwrites]
    rw [List.append_assoc, List.singleton_append] at hlaid'
    exact ⟨rfl, hlaid'⟩

theorem run_onSymbols_eq_ok {α : Type} {act : Attempt SymbolTable α} {s s' : Session} {a : α}
    (h : (Session.onSymbols act).run s = (.ok a, s')) :
    ∃ t, act.run s.symbols = (.ok a, t) ∧ s' = s.setSymbols t := by
  rcases hrun : act.run s.symbols with ⟨r, t⟩
  rw [run_onSymbols hrun] at h
  obtain ⟨rfl, rfl⟩ := Prod.mk.inj h
  exact ⟨t, rfl, rfl⟩

theorem nonneg_of_resolveLink {link : Lazy} {n : Int64}
    (h : (resolveLink link).run t = (.ok n, t')) : 0 ≤ n.toInt := by
  obtain ⟨m, u, -, h⟩ := Attempt.run_bind_eq_ok.mp h
  by_cases hneg : m < 0
  · rw [if_pos hneg] at h
    cases h
  · rw [if_neg hneg] at h
    cases h
    rwa [Int64.not_lt, Int64.le_iff_toInt_le] at hneg

/-- A link that succeeds reaches every store, and its image is memory from the load address on. -/
theorem laidOut_of_linkImage {s s' : Session} {image : Image}
    (h : Session.linkImage.run s = (.ok image, s')) :
    s.reached.map (·.write) = s.writes ∧ 0 ≤ image.link.toInt ∧
      ∃ memory, LaidOut s.entries memory ∧
        image.data = memory.toList.drop image.link.toNatClampNeg := by
  rw [Session.linkImage, Attempt.run_bind_ok (Attempt.run_get s)] at h
  obtain ⟨⟨⟩, s₁, hall, h⟩ := Attempt.run_bind_eq_ok.mp h
  obtain ⟨memory, s₂, hstores, h⟩ := Attempt.run_bind_eq_ok.mp h
  obtain ⟨link, s₃, hlink, h⟩ := Attempt.run_bind_eq_ok.mp h
  obtain ⟨t, hsymbols, rfl⟩ := run_onSymbols_eq_ok hall
  obtain ⟨u, hmemory, rfl⟩ := run_onSymbols_eq_ok hstores
  obtain ⟨v, haddress, rfl⟩ := run_onSymbols_eq_ok hlink
  cases h
  have hreached : s.reached = reachedFrom #[] t s.writes := by
    rw [Session.reached, hsymbols]
  obtain ⟨hwrites, hlaid⟩ := laidOut_nil.storeAll hmemory
  rw [List.nil_append] at hlaid
  rw [Session.entries, hreached]
  exact ⟨hwrites, nonneg_of_resolveLink haddress, memory, hlaid, rfl⟩

end Linking

/-- A link that succeeds has carried out every store of the session. Its image ends at the last byte
stored behind the load address, and is empty if there is none, exactly if every store without bytes
lies before that end or before the load address. -/
theorem image_ends_at_last_byte (s : Session) (image : Image) (s' : Session)
    (h : Session.linkImage.run s = (.ok image, s')) :
    s.reached.map (·.write) = s.writes ∧
    ((∀ e ∈ s.entries, e.1 = [] → e.2.toInt ≤ max image.link.toInt (bytesEnd s.entries)) ↔
      (image.data ≠ [] →
        ∃ e ∈ s.entries, (e.byteAt? (image.link.toInt + image.data.length - 1)).isSome) ∧
      ((∀ e ∈ s.entries, ∀ a, image.link.toInt ≤ a → e.byteAt? a = none) → image.data = []) ∧
      (image.data.length : Int) = max 0 (bytesEnd s.entries - image.link.toInt)) := by
  obtain ⟨hwrites, hlink, memory, hlaid, hdata⟩ := laidOut_of_linkImage h
  refine ⟨hwrites, ?_⟩
  have hlength : (image.data.length : Int) = max 0 (imageEnd s.entries - image.link.toInt) := by
    have hsize := hlaid.size
    rw [hdata, List.length_drop, Array.length_toList, Int64.toNatClampNeg]
    omega
  rw [← imageEnd_le_max_iff hlink, ← max_imageEnd_eq_iff, ← hlength]
  constructor
  · intro hend
    have hlast (hne : image.data ≠ []) :
        ∃ e ∈ s.entries, (e.byteAt? (image.link.toInt + image.data.length - 1)).isSome := by
      have hpos := List.length_pos_iff.mpr hne
      have hplace : image.link.toInt + image.data.length - 1 = bytesEnd s.entries - 1 := by omega
      rw [hplace]
      exact exists_byteAt?_bytesEnd (by omega)
    refine ⟨hlast, fun hnone => ?_, hend⟩
    by_contra hne
    have hpos := List.length_pos_iff.mpr hne
    obtain ⟨e, he, hbyte⟩ := hlast hne
    rw [hnone e he _ (by omega)] at hbyte
    cases hbyte
  · intro hends
    exact hends.2.2

/-- An empty block at 4 and a byte at 0, loaded at 0. -/
def emptyBeyond : Session :=
  .after noFiles [.setLink 0, .addSource "input" ".LINK 4\n.BLKB 0\n.LINK 0\n.BYTE 1\n"]

/-- Empty stores behind bytes, at the end and in a gap. -/
def emptyInside : Session :=
  .after noFiles [.setLink 0,
    .addSource "input"
      ".BYTE 1\n.BLKB 0\n.LINK 10\n.BYTE 2, 3\n.EVEN\n.LINK 4\n.ASCII \"\"\n.LINK 0\n"]

theorem empty_stores_linked :
    ((Session.linkImage.outcome emptyBeyond).toOption.map
        (fun image => (image.link, image.data)) = some (0, [1, 0, 0, 0]) ∧
      emptyBeyond.entries = [([], 4), ([1], 0)]) ∧
    (Session.linkImage.outcome emptyInside).toOption.map
        (fun image => (image.link, image.data)) = some (0, [1, 0, 0, 0, 0, 0, 0, 0, 2, 3]) ∧
      emptyInside.entries = [([1], 0), ([], 1), ([2], 8), ([3], 9), ([], 10), ([], 4)] := by
  decide +kernel

/-- Three bytes of the image are stored by nothing. -/
theorem emptyBeyond_image :
    ∃ image s', Session.linkImage.run emptyBeyond = (.ok image, s') ∧ image.link = 0 ∧
      image.data = [1, 0, 0, 0] ∧ emptyBeyond.entries = [([], 4), ([1], 0)] ∧
      ∀ e ∈ emptyBeyond.entries, e.byteAt? 3 = none := by
  obtain ⟨⟨hlinked, hentries⟩, -⟩ := empty_stores_linked
  obtain ⟨image, hrun, himage⟩ := run_of_outcome hlinked
  obtain ⟨hlink, hdata⟩ := Prod.mk.inj himage
  refine ⟨image, _, hrun, hlink, hdata, hentries, ?_⟩
  rw [hentries]
  decide

theorem image_ends_at_last_byte_emptyInside :
    ∃ image s', Session.linkImage.run emptyInside = (.ok image, s') ∧
      image.data = [1, 0, 0, 0, 0, 0, 0, 0, 2, 3] ∧
      emptyInside.entries = [([1], 0), ([], 1), ([2], 8), ([3], 9), ([], 10), ([], 4)] ∧
      (∃ e ∈ emptyInside.entries,
        (e.byteAt? (image.link.toInt + image.data.length - 1)).isSome) ∧
      (image.data.length : Int) = max 0 (bytesEnd emptyInside.entries - image.link.toInt) := by
  obtain ⟨-, hlinked, hentries⟩ := empty_stores_linked
  obtain ⟨image, hrun, himage⟩ := run_of_outcome hlinked
  obtain ⟨hlink, hdata⟩ := Prod.mk.inj himage
  obtain ⟨-, hiff⟩ := image_ends_at_last_byte emptyInside image _ hrun
  have hempty : ∀ e ∈ emptyInside.entries,
      e.1 = [] → e.2.toInt ≤ max image.link.toInt (bytesEnd emptyInside.entries) := by
    rw [hentries, hlink]
    decide
  obtain ⟨hlast, -, hlength⟩ := hiff.mp hempty
  have hne : image.data ≠ [] := by
    rw [hdata]
    exact List.cons_ne_nil _ _
  exact ⟨image, _, hrun, hdata, hentries, hlast hne, hlength⟩

end Eleven.Assembly

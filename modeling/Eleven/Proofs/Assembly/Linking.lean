import Eleven.Proofs.Assembly.Stores
import Eleven.Proofs.Lazy.Settled

/-! What linking comes to once every symbol has its integer. -/
namespace Eleven.Assembly

theorem run_of_outcome {σ α β : Type} {act : Attempt σ α} {s : σ} {f : α → β} {b : β}
    (h : (act.outcome s).toOption.map f = some b) :
    ∃ a, act.run s = (.ok a, (act.run s).2) ∧ f a = b := by
  rcases hrun : act.run s with ⟨r | a, s'⟩
  · rw [Attempt.outcome, hrun] at h
    cases h
  · rw [Attempt.outcome, hrun] at h
    exact ⟨a, rfl, Option.some.inj h⟩

theorem run_onSymbols {α : Type} {act : Attempt SymbolTable α} {s : Session} {t : SymbolTable}
    {r : Except Failure α} (h : act.run s.symbols = (r, t)) :
    (Session.onSymbols act).run s = (r, s.setSymbols t) := by
  rw [Session.onSymbols, Attempt.onPart, Attempt.run_of, h]

/-- The load address in an environment. -/
def linkAddress (env : Env) (link : Lazy) : Except Failure Int64 := do
  let n ← (link.intValue env).mapError fun e => (Failure.within "link address" e).annotate .nowhere
  if n < 0 then .error ((Problem.negativeLink n).failure .nowhere) else .ok n

section Settled

variable {t : SymbolTable} (hs : t.Settled)
include hs

theorem run_resolveWrite (w : Write) : (resolveWrite w).run t = (w.resolved t.results, t) := by
  rw [resolveWrite, Attempt.run_mapFailure, Write.resolved]
  suffices h : (do
      let d ← w.data.eval SymbolTable.lookup
      let bytes ← payload d
      let address ← w.address.resolveInt SymbolTable.lookup
      pure (bytes, address) : Attempt SymbolTable (List Int64 × Int64)).run t =
      (do
        let d ← w.data.value t.results
        let bytes ← payload d
        let address ← w.address.intValue t.results
        .ok (bytes, address), t) by
    rw [h]
  have hd := hs.run_eval w.data
  have ha := hs.run_resolveInt w.address
  cases hdv : w.data.value t.results with
  | error e =>
    rw [hdv] at hd
    exact Attempt.run_bind_error hd _
  | ok d =>
    rw [hdv] at hd
    rw [Attempt.run_bind_ok hd, ok_bind]
    cases hb : payload d with
    | error e => rfl
    | ok bytes =>
      rw [ok_bind, Attempt.run_bind_ok (Attempt.run_liftM (.ok bytes) t)]
      cases hav : w.address.intValue t.results with
      | error e =>
        rw [hav] at ha
        exact Attempt.run_bind_error ha _
      | ok a =>
        rw [hav] at ha
        exact Attempt.run_bind_ok ha _

theorem run_storeAll (memory : Array UInt8) (ws : List Write) :
    (storeAll memory ws).run t = (stored t.results memory ws, t) := by
  induction ws generalizing memory with
  | nil => rfl
  | cons w ws ih =>
    have hw := run_resolveWrite hs w
    rw [storeAll, stored]
    cases hr : w.resolved t.results with
    | error e =>
      rw [hr] at hw
      exact Attempt.run_bind_error hw _
    | ok r =>
      rw [hr] at hw
      rw [Attempt.run_bind_ok hw, ok_bind]
      dsimp only
      cases hm : store w.position memory r.2 r.1 with
      | error e => rfl
      | ok memory' =>
        rw [ok_bind, Attempt.run_bind_ok (Attempt.run_liftM (.ok memory') t)]
        exact ih memory'

theorem run_resolveLink (link : Lazy) :
    (resolveLink link).run t = (linkAddress t.results link, t) := by
  have hlink : (Attempt.mapFailure
      (fun e => (Failure.within "link address" e).annotate .nowhere)
      (link.resolveInt SymbolTable.lookup)).run t =
      ((link.intValue t.results).mapError
        fun e => (Failure.within "link address" e).annotate .nowhere, t) := by
    rw [Attempt.run_mapFailure, hs.run_resolveInt]
  rw [resolveLink, linkAddress]
  cases hn : link.intValue t.results with
  | error e =>
    rw [hn] at hlink
    exact Attempt.run_bind_error hlink _
  | ok n =>
    rw [hn] at hlink
    rw [Attempt.run_bind_ok hlink]
    change _ = ((if n < 0 then _ else _ : Except Failure Int64), t)
    split_ifs <;> rfl

/-- The image of a session whose symbols have all been resolved. -/
theorem run_linkImage {s : Session} (hall : SymbolTable.resolveAll.run s.symbols = (.ok (), t)) :
    Session.linkImage.run s =
      (do
        let memory ← stored t.results #[] s.writes
        let link ← linkAddress t.results s.link
        .ok ⟨s.build, memory.toList.drop link.toNatClampNeg, link, t.values⟩, s.setSymbols t) := by
  have hstores := run_onSymbols (s := s.setSymbols t) (run_storeAll hs #[] s.writes)
  have hlink := run_onSymbols (s := s.setSymbols t) (run_resolveLink hs s.link)
  rw [Session.linkImage, Attempt.run_bind_ok (Attempt.run_get s),
    Attempt.run_bind_ok (run_onSymbols hall)]
  cases hm : stored t.results #[] s.writes with
  | error e =>
    rw [hm] at hstores
    exact Attempt.run_bind_error hstores _
  | ok memory =>
    rw [hm] at hstores
    rw [Attempt.run_bind_ok hstores, ok_bind]
    cases hn : linkAddress t.results s.link with
    | error e =>
      rw [hn] at hlink
      exact Attempt.run_bind_error hlink _
    | ok n =>
      rw [hn] at hlink
      exact Attempt.run_bind_ok hlink _

end Settled

/-- The bytes of an image whose stores all fit. Each condition can be evaluated without memory. -/
theorem data_of_fits {s : Session} (es : List (List Int64 × Int64)) (link : Int64)
    (hall : (SymbolTable.resolveAll.outcome s.symbols).toOption = some ())
    (hsettled : ((SymbolTable.resolveAll.run s.symbols).2.symbols.all
      fun y => y.progress matches .resolved (.int _)) = true)
    (hes : s.writes.map (fun w =>
      (w.resolved (SymbolTable.resolveAll.run s.symbols).2.results).toOption) = es.map some)
    (hfits : es.all fitsMemory = true)
    (hlink : (linkAddress (SymbolTable.resolveAll.run s.symbols).2.results s.link).toOption =
      some link) :
    (Session.linkImage.outcome s).toOption.map Image.data =
      some ((overlaid [] es).drop link.toNatClampNeg) := by
  have hrun : SymbolTable.resolveAll.run s.symbols =
      (.ok (), (SymbolTable.resolveAll.run s.symbols).2) :=
    Prod.ext (toOption_eq_some.mp hall) rfl
  obtain ⟨memory, hstored, hleft⟩ := stored_of_fits hes hfits #[]
  rw [Attempt.outcome_eq_of_run (run_linkImage (SymbolTable.settled_of_all hsettled) hrun), hstored,
    ok_bind, toOption_eq_some.mp hlink, ok_bind, ← hleft]
  rfl

/-- A link that succeeds has resolved every symbol, carried out every store and found the load
address. -/
theorem linkImage_eq_ok {s s' : Session} {image : Image} (hq : s.symbols.Quiet)
    (h : Session.linkImage.run s = (.ok image, s')) :
    ∃ t memory, SymbolTable.resolveAll.run s.symbols = (.ok (), t) ∧
      stored t.results #[] s.writes = .ok memory ∧ linkAddress t.results s.link = .ok image.link ∧
      image.symbols = t.values ∧ image.data = memory.toList.drop image.link.toNatClampNeg := by
  have hfirst := h
  rw [Session.linkImage, Attempt.run_bind_ok (Attempt.run_get s)] at hfirst
  obtain ⟨⟨⟩, s₁, hall, -⟩ := Attempt.run_bind_eq_ok.mp hfirst
  rcases hrun : SymbolTable.resolveAll.run s.symbols with ⟨r, t⟩
  rw [run_onSymbols hrun] at hall
  obtain rfl : r = .ok () := congrArg Prod.fst hall
  obtain ⟨-, -, hst⟩ := SymbolTable.settled_of_resolveAll hq hrun
  rw [run_linkImage hst hrun] at h
  obtain ⟨memory, hmem, himage⟩ := bind_eq_ok.mp (congrArg Prod.fst h)
  obtain ⟨link, hlink, himage⟩ := bind_eq_ok.mp himage
  cases himage
  exact ⟨t, memory, rfl, hmem, hlink, rfl, rfl⟩

/-- The symbols of the session behind the image have all been resolved. -/
theorem resolveAll_of_linkImage {s s' : Session} {image : Image} (hq : s.symbols.Quiet)
    (h : Session.linkImage.run s = (.ok image, s')) :
    SymbolTable.resolveAll.run s.symbols = (.ok (), s'.symbols) := by
  obtain ⟨t, memory, hall, -⟩ := linkImage_eq_ok hq h
  obtain ⟨-, -, hsettled⟩ := SymbolTable.settled_of_resolveAll hq hall
  have hleft : s.setSymbols t = s' := by
    rw [run_linkImage hsettled hall] at h
    exact congrArg Prod.snd h
  rw [hall, ← hleft]
  rfl

/-- What a link that succeeds has found out. -/
structure Linked (s : Session) (image : Image) (t : SymbolTable) (memory : Array UInt8) :
    Prop where
  quiet : t.Quiet
  grows : s.symbols.Grows t
  settled : t.Settled
  symbols : image.symbols = t.values
  stores : stored t.results #[] s.writes = .ok memory
  data : image.data = memory.toList.drop image.link.toNatClampNeg

theorem linked_of_linkImage {s s' : Session} {image : Image} (hq : s.symbols.Quiet)
    (h : Session.linkImage.run s = (.ok image, s')) : ∃ t memory, Linked s image t memory := by
  obtain ⟨t, memory, hall, hmem, -, hsymbols, hdata⟩ := linkImage_eq_ok hq h
  obtain ⟨hqt, hg, hst⟩ := SymbolTable.settled_of_resolveAll hq hall
  exact ⟨t, memory, hqt, hg, hst, hsymbols, hmem, hdata⟩

end Eleven.Assembly

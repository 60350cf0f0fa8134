import Eleven.Proofs.Assembly.Parallel

/-! Whole runs of parallel sessions, up to the image. -/
namespace Eleven.Assembly

open Eleven.Source (Naming Header Operation Command)

variable {c : Naming} {α β : Type}

/-- The computation fails, or leaves a session that cannot be linked. -/
def Fails (x : Attempt Session α) (s : Session) : Prop := ∀ a u, x.run s = (.ok a, u) → Doomed u

/-- The computation only adds to a session. -/
def Steady (x : Attempt Session α) : Prop := ∀ s, s.symbols.Quiet → Extends s (x.run s).2

theorem Doomed.fails {s : Session} (h : Doomed s) (hq : s.symbols.Quiet) {x : Attempt Session α}
    (hx : Steady x) : Fails x s := by
  intro a u hrun
  have he := hx s hq
  rw [hrun] at he
  exact h.of_extends he

theorem fails_of_error {x : Attempt Session α} {s : Session} {e : Failure} {u : Session}
    (h : x.run s = (.error e, u)) : Fails x s := by
  intro a w hrun
  rw [h] at hrun
  cases hrun

/-- From parallel sessions two computations come to the same and leave parallel sessions, unless
neither leads to an image. -/
structure Tallies (c : Naming) (x y : Attempt Session α) : Prop where
  steady : Steady x
  steady' : Steady y
  parallel : ∀ s s', Parallel c s s' →
    (∃ a u u', x.run s = (.ok a, u) ∧ y.run s' = (.ok a, u') ∧ Parallel c u u') ∨
      Fails x s ∧ Fails y s'

section Tallies

variable {x y : Attempt Session α}

theorem Steady.lift (e : Except Failure α) : Steady (liftM e) := fun _ hq => .refl hq

theorem Steady.bind (hx : Steady x) {f : α → Attempt Session β} (hf : ∀ a, Steady (f a)) :
    Steady (x >>= f) := by
  intro s hq
  have hone := hx s hq
  rcases hrun : x.run s with ⟨r | a, u⟩
  · rw [hrun] at hone
    rw [Attempt.run_bind_error hrun]
    exact hone
  · rw [hrun] at hone
    rw [Attempt.run_bind_ok hrun]
    exact hone.trans (hf a u hone.quiet)

theorem steady_update {f : Session → Except Failure Session}
    (h : ∀ s u, s.symbols.Quiet → f s = .ok u → Extends s u) : Steady (Attempt.update f) := by
  intro s hq
  rw [Attempt.update, Attempt.run_of]
  cases hf : f s with
  | error e => exact .refl hq
  | ok u => exact h s u hq hf

theorem Tallies.pure (a : α) : Tallies c (Pure.pure a) (Pure.pure a) :=
  ⟨.lift (.ok a), .lift (.ok a), fun s s' h => .inl ⟨a, s, s', rfl, rfl, h⟩⟩

theorem tallies_throw (e e' : Failure) :
    Tallies c (throw e : Attempt Session α) (throw e') :=
  ⟨.lift (.error e), .lift (.error e'), fun s s' _ =>
    .inr ⟨fails_of_error (Attempt.run_throw e s), fails_of_error (Attempt.run_throw e' s')⟩⟩

theorem Tallies.bind (h : Tallies c x y) {f g : α → Attempt Session β}
    (hfg : ∀ a, Tallies c (f a) (g a)) : Tallies c (x >>= f) (y >>= g) := by
  refine ⟨h.steady.bind fun a => (hfg a).steady, h.steady'.bind fun a => (hfg a).steady', ?_⟩
  have hfail : ∀ {z : Attempt Session α} {k : α → Attempt Session β} {s : Session}, Steady z →
      (∀ a, Steady (k a)) → s.symbols.Quiet → Fails z s → Fails (z >>= k) s := by
    intro z k s hz hk hq hfails b u hrun
    obtain ⟨a, m, hm, hu⟩ := Attempt.run_bind_eq_ok.mp hrun
    have he := hz s hq
    rw [hm] at he
    exact (hfails a m hm).fails he.quiet (hk a) b u hu
  intro s s' hs
  rcases h.parallel s s' hs with ⟨a, u, u', hx, hy, hu⟩ | ⟨hx, hy⟩
  · rw [Attempt.run_bind_ok hx, Attempt.run_bind_ok hy]
    rcases (hfg a).parallel u u' hu with hok | ⟨hf, hg⟩
    · exact .inl hok
    · right
      constructor
      · intro b w hrun
        rw [Attempt.run_bind_ok hx] at hrun
        exact hf b w hrun
      · intro b w hrun
        rw [Attempt.run_bind_ok hy] at hrun
        exact hg b w hrun
  · right
    constructor
    · exact hfail h.steady (fun a => (hfg a).steady) hs.symbols.quiet hx
    · exact hfail h.steady' (fun a => (hfg a).steady') hs.symbols.quiet' hy

theorem tallies_update {f g : Session → Except Failure Session}
    (hf : ∀ s u, s.symbols.Quiet → f s = .ok u → Extends s u)
    (hg : ∀ s u, s.symbols.Quiet → g s = .ok u → Extends s u)
    (h : ∀ s s', Parallel c s s' →
      Matched (fun u u' => Parallel c u u' ∨ Doomed u ∧ Doomed u') (f s) (g s')) :
    Tallies c (Attempt.update f) (Attempt.update g) := by
  refine ⟨steady_update hf, steady_update hg, fun s s' hs => ?_⟩
  have hmatch := h s s' hs
  have hok : ∀ {f : Session → Except Failure Session} {s u : Session}, f s = .ok u →
      (Attempt.update f).run s = (.ok (), u) := Attempt.run_update_eq_ok.mpr
  generalize hfs : f s = r at hmatch
  generalize hgs : g s' = r' at hmatch
  cases hmatch with
  | error e e' =>
    refine .inr ⟨fails_of_error (e := e) (u := s) ?_, fails_of_error (e := e') (u := s') ?_⟩
    · rw [Attempt.update, Attempt.run_of, hfs]
    · rw [Attempt.update, Attempt.run_of, hgs]
  | @ok u u' hu =>
    rcases hu with hu | ⟨hdoomed, hdoomed'⟩
    · exact .inl ⟨(), u, u', hok hfs, hok hgs, hu⟩
    · refine .inr ⟨fun a w hrun => ?_, fun a w hrun => ?_⟩
      · rw [hok hfs] at hrun
        cases hrun
        exact hdoomed
      · rw [hok hgs] at hrun
        cases hrun
        exact hdoomed'

end Tallies

section Commands

theorem tallies_labels {pos pos' : Position} {labels : List String}
    (h : ∀ name ∈ labels, name ≠ c.key) :
    Tallies c (defineLabels pos labels) (defineLabels pos' labels) := by
  induction labels with
  | nil => exact .pure ()
  | cons name labels ih =>
    obtain ⟨hname, hlabels⟩ := List.forall_mem_cons.mp h
    refine Tallies.bind ?_ fun _ => ih hlabels
    refine tallies_update (fun s u hq => extends_define hq) (fun s u hq => extends_define hq) ?_
    intro s s' hs
    exact (hs.define hname hs.pc).imp fun _ _ => .inl

theorem run_repeatCount (pos : Position) (count : Lazy) {s : Session} (hq : s.symbols.Quiet) :
    ∃ t, t.Quiet ∧ s.symbols.Grows t ∧ (repeatCount pos count).run s =
      ((count.intValue s.symbols.env >>= fun n =>
        if n < 0 then .error (.fault (.negativeCount n)) else .ok n.toNatClampNeg).mapError
          (repeatFailure pos), s.setSymbols t) := by
  obtain ⟨t, hrun, hqt, hg⟩ := hq.run_resolveInt count
  refine ⟨t, hqt, hg, ?_⟩
  have hsymbols := run_onSymbols (s := s) hrun
  rw [repeatCount, Attempt.run_mapFailure]
  cases hn : count.intValue s.symbols.env with
  | error e =>
    rw [hn] at hsymbols
    rw [Attempt.run_bind_error hsymbols]
    rfl
  | ok n =>
    rw [hn] at hsymbols
    rw [Attempt.run_bind_ok hsymbols, ok_bind]
    by_cases hneg : n < 0
    · simp only [hneg, if_true]
      rfl
    · simp only [hneg, if_false]
      rfl

theorem tallies_count {pos pos' : Position} {count count' : Lazy} (h : c.SameInt count count') :
    Tallies c (repeatCount pos count) (repeatCount pos' count') := by
  have hsteady : ∀ pos count, Steady (repeatCount pos count) := by
    intro pos count s hq
    obtain ⟨t, hqt, hg, hrun⟩ := run_repeatCount pos count hq
    rw [hrun]
    exact extends_setSymbols hqt hg
  refine ⟨hsteady pos count, hsteady pos' count', fun s s' hs => ?_⟩
  obtain ⟨t, hq, hg, hrun⟩ := run_repeatCount pos count hs.symbols.quiet
  obtain ⟨t', hq', hg', hrun'⟩ := run_repeatCount pos' count' hs.symbols.quiet'
  have hcount : Matched Eq
      ((count.intValue s.symbols.env >>= fun n =>
        if n < 0 then .error (.fault (.negativeCount n)) else .ok n.toNatClampNeg).mapError
          (repeatFailure pos))
      ((count'.intValue s'.symbols.env >>= fun n =>
        if n < 0 then .error (.fault (.negativeCount n)) else .ok n.toNatClampNeg).mapError
          (repeatFailure pos')) :=
    ((h hs.symbols.env).bindEq fun n => .rfl).mapError _ _
  generalize (count.intValue s.symbols.env >>= _).mapError _ = r at hrun hcount
  generalize (count'.intValue s'.symbols.env >>= _).mapError _ = r' at hrun' hcount
  cases hcount with
  | error => exact .inr ⟨fails_of_error hrun, fails_of_error hrun'⟩
  | @ok n n' hn =>
    subst hn
    have hsymbols := hs.symbols.of_grows hq hq' hg hg'
    exact .inl ⟨n, _, _, hrun, hrun', hs.setSymbols hsymbols⟩

theorem tallies_replay {x y : Attempt Session Flow} (h : Tallies c x y) (n : Nat) :
    Tallies c (replay x n) (replay y n) := by
  induction n with
  | zero => exact .pure ()
  | succ n ih => exact h.bind fun _ => ih

variable {inc inc' : Includer}

theorem tallies_single (hinc : ∀ h h' name, Tallies c (inc h name) (inc' h' name))
    {h h' : Header} {o o' : Operation} (hh : c.TurnsHeader h h') (ho : c.TurnsOperation o o') :
    Tallies c (run noFiles inc (.single h o)) (run noFiles inc' (.single h' o')) := by
  have happly : Tallies c (Attempt.update (apply noFiles h o) >>= fun _ => pure Flow.next)
      (Attempt.update (apply noFiles h' o') >>= fun _ => pure Flow.next) := by
    refine Tallies.bind ?_ fun _ => .pure _
    refine tallies_update (fun s u hq => extends_apply noFiles h o hq)
      (fun s u hq => extends_apply noFiles h' o' hq) ?_
    intro s s' hs
    exact hs.apply hh ho
  unfold run
  rw [hh.labels]
  refine (tallies_labels hh.fresh).bind fun _ => ?_
  cases ho with
  | plain hplain =>
    cases o with
    | endOfSource => exact .pure _
    | includeFile name => exact (hinc h h' name).bind fun _ => .pure _
    | _ => exact happly
  | _ => exact happly

mutual

theorem tallies_run (hinc : ∀ h h' name, Tallies c (inc h name) (inc' h' name)) (x x' : Command)
    (h : c.TurnsCommand x x') :
    Tallies c (run noFiles inc x) (run noFiles inc' x') := by
  cases x with
  | single head o =>
    cases h with
    | single hh ho => exact tallies_single hinc hh ho
  | repetition head count body =>
    cases h with
    | @repetition _ head' _ count' _ body' hh hcount hbody =>
      unfold run
      rw [hh.labels]
      refine (tallies_labels hh.fresh).bind fun _ => (tallies_count hcount).bind fun n => ?_
      exact (tallies_replay (tallies_runBody hinc body body' hbody) n).bind fun _ => .pure _

theorem tallies_runBody (hinc : ∀ h h' name, Tallies c (inc h name) (inc' h' name))
    (xs xs' : List Command) (h : List.Forall₂ c.TurnsCommand xs xs') :
    Tallies c (runBody noFiles inc xs) (runBody noFiles inc' xs') := by
  cases xs with
  | nil =>
    cases h with
    | nil =>
      unfold runBody
      exact .pure _
  | cons x xs =>
    cases h with
    | @cons _ x' _ xs' hx hxs =>
      unfold runBody
      refine (tallies_run hinc x x' hx).bind fun flow => ?_
      cases flow with
      | stop => exact .pure _
      | next => exact tallies_runBody hinc xs xs' hxs

end

theorem tallies_runSource (hinc : ∀ h h' name, Tallies c (inc h name) (inc' h' name))
    {xs xs' : List (Except Failure Command)}
    (h : List.Forall₂ (Matched c.TurnsCommand) xs xs') :
    Tallies c (runSource noFiles inc xs) (runSource noFiles inc' xs') := by
  induction h with
  | nil => exact .pure ()
  | cons hx _ ih =>
    cases hx with
    | error => exact tallies_throw _ _
    | ok hx =>
      unfold runSource
      refine (tallies_run hinc _ _ hx).bind fun flow => ?_
      cases flow with
      | stop => exact .pure ()
      | next => exact ih

end Commands

/-- Where there are no files none can be included. -/
theorem tallies_include (compile? compile?' : Option (String → String → Attempt Session Unit))
    (h h' : Header) (name : String) :
    Tallies c (includeWith noFiles compile? h name) (includeWith noFiles compile?' h' name) := by
  have hfail : ∀ (compile? : Option (String → String → Attempt Session Unit)) (h : Header)
      (s : Session), ∃ e, (includeWith noFiles compile? h name).run s = (.error e, s) := by
    intro compile? h s
    unfold includeWith
    rw [Attempt.run_bind_ok (Attempt.run_get s)]
    by_cases hpath : Path.resolve h.position.file name ∈ s.files
    · simp only [hpath, if_true]
      exact ⟨_, rfl⟩
    · simp only [hpath, if_false]
      cases compile? with
      | none => exact ⟨_, rfl⟩
      | some compile =>
        obtain ⟨f, hf⟩ := read_noFiles (Path.resolve h.position.file name)
        simp only [hf]
        exact ⟨_, rfl⟩
  have hsteady : ∀ compile? h, Steady (includeWith noFiles compile? h name) := by
    intro compile? h s hq
    obtain ⟨e, he⟩ := hfail compile? h s
    rw [he]
    exact .refl hq
  refine ⟨hsteady compile? h, hsteady compile?' h', fun s s' _ => ?_⟩
  obtain ⟨e, he⟩ := hfail compile? h s
  obtain ⟨e', he'⟩ := hfail compile?' h' s'
  exact .inr ⟨fails_of_error he, fails_of_error he'⟩

/-- When a session can be linked, and to what. -/
theorem linkImage_data_iff {s : Session} (hq : s.symbols.Quiet) (data : List UInt8) :
    (∃ image u, Session.linkImage.run s = (.ok image, u) ∧ image.data = data) ↔
      (∃ t, SymbolTable.resolveAll.run s.symbols = (.ok (), t)) ∧
        ∃ memory link, stored s.symbols.env #[] s.writes = .ok memory ∧
          linkAddress s.symbols.env s.link = .ok link ∧
          memory.toList.drop link.toNatClampNeg = data := by
  constructor
  · rintro ⟨image, u, hlink, rfl⟩
    obtain ⟨t, memory, hall, hstored, haddress, -, hdata⟩ := linkImage_eq_ok hq hlink
    rw [SymbolTable.results_eq_env hq hall] at hstored haddress
    exact ⟨⟨t, hall⟩, memory, image.link, hstored, haddress, hdata.symm⟩
  · rintro ⟨⟨t, hall⟩, memory, link, hstored, haddress, rfl⟩
    obtain ⟨-, -, hsettled⟩ := SymbolTable.settled_of_resolveAll hq hall
    have hrun := run_linkImage hsettled hall
    rw [SymbolTable.results_eq_env hq hall, hstored, ok_bind, haddress, ok_bind] at hrun
    exact ⟨_, _, hrun, rfl⟩

/-- Parallel sessions are linked to the same bytes, or neither is linked. -/
theorem Parallel.data_iff {s s' : Session} (h : Parallel c s s') (data : List UInt8) :
    (∃ image u, Session.linkImage.run s = (.ok image, u) ∧ image.data = data) ↔
      ∃ image u, Session.linkImage.run s' = (.ok image, u) ∧ image.data = data := by
  have henv := h.symbols.env
  have hstored : Matched Eq (stored s.symbols.env #[] s.writes)
      (stored s'.symbols.env #[] s'.writes) :=
    matched_stored (List.rel_reverse h.pending) henv (by simp)
  have haddress : Matched Eq (linkAddress s.symbols.env s.link)
      (linkAddress s'.symbols.env s'.link) := by
    unfold linkAddress
    exact ((h.link henv).mapError _ _).bindEq fun n => .rfl
  rw [linkImage_data_iff h.symbols.quiet, linkImage_data_iff h.symbols.quiet',
    h.symbols.resolveAll_iff]
  simp only [hstored.eq_ok_iff, haddress.eq_ok_iff]

/-- Images with the same bytes, behind sessions whose symbols are the same but for the name. -/
structure SameImage (c : Naming) (p p' : Image × Session) : Prop where
  data : p'.1.data = p.1.data
  names : p'.2.symbols.names = c.key :: p.2.symbols.names
  values : p'.2.symbols.values = (c.key, c.value) :: p.2.symbols.values

theorem Parallel.linkImage {s s' : Session} (h : Parallel c s s') :
    Matched (SameImage c) (Session.linkImage.result s) (Session.linkImage.result s') := by
  have hdata := h.data_iff
  rcases hleft : Session.linkImage.run s with ⟨e | image, w⟩
  · rcases hright : Session.linkImage.run s' with ⟨e' | image', w'⟩
    · rw [Attempt.result_eq_error hleft, Attempt.result_eq_error hright]
      exact .error e e'
    · obtain ⟨image, w, hlink, -⟩ := (hdata image'.data).mpr ⟨image', w', hright, rfl⟩
      rw [hleft] at hlink
      cases hlink
  · obtain ⟨image', w', hright, hsame⟩ := (hdata image.data).mp ⟨image, w, hleft, rfl⟩
    rw [Attempt.result_eq_of_run hleft, Attempt.result_eq_of_run hright]
    have hall := resolveAll_of_linkImage h.symbols.quiet hleft
    have hall' := resolveAll_of_linkImage h.symbols.quiet' hright
    obtain ⟨hq, hg, -⟩ := SymbolTable.settled_of_resolveAll h.symbols.quiet hall
    obtain ⟨hq', hg', -⟩ := SymbolTable.settled_of_resolveAll h.symbols.quiet' hall'
    have hresolved := h.symbols.of_grows hq hq' hg hg'
    exact .ok ⟨hsame, hresolved.order, h.symbols.values_resolveAll hall hall'⟩

end Eleven.Assembly

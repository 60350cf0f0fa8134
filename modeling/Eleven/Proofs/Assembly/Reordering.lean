import Eleven.Proofs.Assembly.Calls
import Eleven.Proofs.Lazy.Solution

/-! A constant may be defined anywhere: an equation can be moved across the commands beside it, and
what is assembled stays the same. -/
namespace Eleven.Assembly

open Eleven.Files (FileSystem)
open Eleven.Source (Header Operation Command Reader)

/-- Commands that concern the session alone: no block, no other file, no end of the source. -/
def isStraight : Command → Bool
  | .single _ (.includeFile _) => false
  | .single _ .endOfSource => false
  | .single _ _ => true
  | .repetition _ _ _ => false

/-- How commands of a file inside which `room` further files may be open include one. -/
def includerWithin (fs : FileSystem) : Nat → Includer
  | 0 => includeWith fs none
  | room + 1 => includeWith fs (some (compile fs room))

/-- Runs commands as those of a file of a name, inside which `room` further files may be open. -/
def handle (fs : FileSystem) (room : Nat) (file : String) (cs : List Command) :
    Attempt Session Unit :=
  inFile (Path.clean file) (runSource fs (includerWithin fs room) (cs.map .ok))

/-- A text is assembled by running the commands that are read from it. -/
theorem compile_eq_handle {file text : String} {cs : List Command}
    (hcs : Reader.commands file text = cs.map .ok) (fs : FileSystem) (room : Nat) :
    compile fs room file text = handle fs room file cs := by
  unfold handle
  rw [← hcs]
  cases room <;> rfl

/-- The image of the commands of a file. -/
def assembled (fs : FileSystem) (room : Nat) (file : String) (s : Session) (cs : List Command) :
    Except Failure Image :=
  Attempt.outcome (do
    handle fs room file cs
    Session.linkImage) s

/-- An equation without labels, under either of its names. -/
def equation (mnemonic : String) (pos : Position) (name : String) (v : Lazy) : Command :=
  .single ⟨[], mnemonic, pos⟩ (.equate name v)

/-- The same image, with the symbols in whatever order. -/
structure Image.Same (i j : Image) : Prop where
  data : i.data = j.data
  link : i.link = j.link
  build : i.build = j.build
  symbols : SymbolTable.SameValues i.symbols j.symbols

/-- Sessions that differ at most in tables of the same bindings. -/
abbrev Session.Akin : Session → Session → Prop := Session.Over SymbolTable.Akin

theorem Session.Akin.refl_left {s s' : Session} (h : s.Akin s') : s.Akin s :=
  ⟨h.symbols.refl_left, rfl⟩

theorem Session.Akin.trans {s s' s'' : Session} (h : s.Akin s') (h' : s'.Akin s'') :
    s.Akin s'' := by
  refine ⟨h.symbols.trans h'.symbols, ?_⟩
  rw [h'.others, h.others]
  rfl

theorem accord_trans {α : Type} {x y z : Attempt Session α} (h : Accord Session.Akin x y)
    (h' : Accord Session.Akin y z) : Accord Session.Akin x z :=
  h.trans (fun _ _ hs => Session.Akin.refl_left hs) (fun _ _ _ => Session.Akin.trans) h'

/-- Computations that can be exchanged. -/
def Exchange (x y : Attempt Session Unit) : Prop :=
  Accord Session.Akin (x >>= fun _ => y) (y >>= fun _ => x)

theorem Exchange.bind {x y z : Attempt Session Unit} (hxy : Exchange x y) (hxz : Exchange x z)
    (hy : Accord Session.Akin y y) (hz : Accord Session.Akin z z) :
    Exchange x (y >>= fun _ => z) := by
  have hfirst : Accord Session.Akin ((x >>= fun _ => y) >>= fun _ => z)
      ((y >>= fun _ => x) >>= fun _ => z) :=
    Accord.bind hxy fun _ => hz
  have hsecond : Accord Session.Akin (y >>= fun _ => x >>= fun _ => z)
      (y >>= fun _ => z >>= fun _ => x) := hy.bind fun _ => hxz
  unfold Exchange
  simp only [bind_assoc] at hfirst ⊢
  exact accord_trans hfirst hsecond

section Equation

variable (name : String) (v : Lazy) (pos : Position)

/-- Definitions can be exchanged. -/
theorem Session.Akin.define_define {s s' : Session} (h : s.Akin s') (name' : String) (v' : Lazy)
    (pos' : Position) :
    Matched Session.Akin (s.define name v pos >>= Session.define name' v' pos')
      (s'.define name' v' pos' >>= Session.define name v pos) := by
  have hdefine : ∀ (s : Session) (name name' : String) (v v' : Lazy) (pos pos' : Position),
      (s.define name v pos >>= Session.define name' v' pos') =
        ((s.symbols.define name v pos >>= SymbolTable.define name' v' pos') >>= fun t =>
          .ok (s.setSymbols t)) := by
    intro s name name' v v' pos pos'
    unfold Session.define
    cases s.symbols.define name v pos <;> rfl
  rw [hdefine, hdefine]
  apply (h.symbols.define_define name name' v v' pos pos').bind
  intro t t' ht
  exact .ok (h.setSymbols ht)

/-- An equation can be exchanged with a label, since it leaves the location counter alone. -/
theorem exchange_label (pos' : Position) (label : String) :
    Exchange (Attempt.update (Session.define name v pos))
      (Attempt.update fun s => s.define label s.pc pos') := by
  apply Accord.update_update
  intro s s' h
  have hpc : s'.pc = s.pc := h.same Session.pc fun _ => rfl
  have hlabel : (s.define name v pos >>= fun u => u.define label u.pc pos') =
      (s.define name v pos >>= Session.define label s.pc pos') := by
    unfold Session.define
    cases s.symbols.define name v pos <;> rfl
  rw [hlabel, hpc]
  exact Session.Akin.define_define name v pos h label s.pc pos'

/-- An equation can be exchanged with an operation: another equation is a definition too, and the
others neither read nor change the table. -/
theorem exchange_apply (fs : FileSystem) (h : Header) (o : Operation) :
    Exchange (Attempt.update (Session.define name v pos)) (Attempt.update (apply fs h o)) := by
  apply Accord.update_update
  intro s s' hs
  by_cases ho : ∃ name v, o = .equate name v
  · obtain ⟨name', v', rfl⟩ := ho
    exact Session.Akin.define_define name v pos hs name' v' h.position
  · have hother : ∀ name v, o ≠ .equate name v := fun name v heq => ho ⟨name, v, heq⟩
    have happly : ∀ t, apply fs h o (s.setSymbols t) =
        (apply fs h o s).map (Session.setSymbols t) := fun t => apply_setSymbols t fs h hother s
    rw [hs.others, happly]
    unfold Session.define
    rcases SymbolTable.stable_akin.define hs.symbols name v pos with
      ⟨e, he, he'⟩ | ⟨t, t', ht, ht', hakin⟩
    · rw [he]
      cases apply fs h o s with
      | error e' => exact .error e e'
      | ok u =>
        change Matched _ _ (SymbolTable.define name v pos s'.symbols >>= _)
        rw [he']
        exact .error e e
    · rw [ht]
      change Matched _ (apply fs h o (s.setSymbols t)) _
      rw [happly]
      cases apply fs h o s with
      | error e => exact .error e e
      | ok u =>
        change Matched _ _ (SymbolTable.define name v pos s'.symbols >>= _)
        rw [ht']
        exact .ok ⟨hakin, rfl⟩

theorem accord_define : Accord Session.Akin (Attempt.update (Session.define name v pos))
    (Attempt.update (Session.define name v pos)) :=
  (Agree.update fun _ _ h => h.define SymbolTable.stable_akin name v pos).accord

theorem accord_labels (pos : Position) (labels : List String) :
    Accord Session.Akin (defineLabels pos labels) (defineLabels pos labels) := by
  rw [← labels_deferred noFiles]
  exact ((related_over SymbolTable.stable_akin noFiles).labels pos labels).accord

theorem exchange_labels (pos' : Position) (labels : List String) :
    Exchange (Attempt.update (Session.define name v pos)) (defineLabels pos' labels) := by
  induction labels with
  | nil =>
    unfold Exchange
    simp only [defineLabels, pure_bind]
    rw [bind_pure_unit]
    exact accord_define name v pos
  | cons label labels ih =>
    have hlabel := (agree_label SymbolTable.stable_akin pos' label).accord
    exact (exchange_label name v pos pos' label).bind ih hlabel (accord_labels pos' labels)

end Equation

/-- What a command does that concerns the session alone. -/
def effect (fs : FileSystem) (h : Header) (o : Operation) : Attempt Session Unit := do
  defineLabels h.position h.labels
  Attempt.update (apply fs h o)

section Sources

variable (fs : FileSystem) (inc : Includer)

theorem runSource_straight {h : Header} {o : Operation} (hc : isStraight (.single h o) = true)
    (rest : List (Except Failure Command)) :
    runSource fs inc (.ok (.single h o) :: rest) =
      (effect fs h o >>= fun _ => runSource fs inc rest) := by
  have hend : o = .endOfSource → False := by
    rintro rfl
    cases hc
  have hinclude : ∀ name, o = .includeFile name → False := by
    rintro name rfl
    cases hc
  rw [runSource, run, effect]
  · simp only [bind_assoc, pure_bind]
  · exact hend
  · exact hinclude

theorem runSource_equation (mnemonic : String) (pos : Position) (name : String) (v : Lazy)
    (rest : List (Except Failure Command)) :
    runSource fs inc (.ok (equation mnemonic pos name v) :: rest) =
      (Attempt.update (Session.define name v pos) >>= fun _ => runSource fs inc rest) := by
  rw [equation, runSource_straight fs inc rfl, effect]
  simp only [defineLabels, pure_bind]
  rfl

theorem exchange_effect (name : String) (v : Lazy) (pos : Position) (h : Header) (o : Operation) :
    Exchange (Attempt.update (Session.define name v pos)) (effect fs h o) := by
  have hlabels := accord_labels h.position h.labels
  have hop := (agree_apply SymbolTable.stable_akin fs h o).accord
  exact (exchange_labels name v pos h.position h.labels).bind (exchange_apply name v pos fs h o)
    hlabels hop

theorem accord_effect (h : Header) (o : Operation) :
    Accord Session.Akin (effect fs h o) (effect fs h o) :=
  (accord_labels h.position h.labels).bind fun _ =>
    (agree_apply SymbolTable.stable_akin fs h o).accord

section Moving

variable {inc : Includer} (hinc : ∀ h name, Agree Session.Akin (inc h name) (inc h name))
include hinc

theorem accord_runSource (cs : List (Except Failure Command)) :
    Accord Session.Akin (runSource fs inc cs) (runSource fs inc cs) := by
  rw [← runSource_deferred]
  exact ((related_over SymbolTable.stable_akin fs).runSource hinc cs).accord

/-- Moving an equation across straight commands. The induction is on these, and each step exchanges
the equation with one of them. -/
theorem accord_move (mnemonic : String) (pos : Position) (name : String) (v : Lazy)
    {ys : List Command} (hys : ys.all isStraight = true) (zs : List Command) :
    Accord Session.Akin
      (runSource fs inc ((equation mnemonic pos name v :: ys ++ zs).map .ok))
      (runSource fs inc ((ys ++ equation mnemonic pos name v :: zs).map .ok)) := by
  induction ys with
  | nil => exact accord_runSource fs hinc _
  | cons y ys ih =>
    rw [List.all_cons, Bool.and_eq_true] at hys
    cases y with
    | repetition h count body => cases hys.1
    | single h o =>
      have hrest := ih hys.2
      have hself := accord_runSource fs hinc ((ys ++ zs).map .ok)
      have hop := accord_effect fs h o
      simp only [List.cons_append, List.map_cons, runSource_equation,
        runSource_straight fs inc hys.1] at hrest ⊢
      have hexchange := Accord.bind (exchange_effect fs name v pos h o) fun _ => hself
      have hmove := hop.bind fun _ => hrest
      simp only [bind_assoc] at hexchange hmove
      exact accord_trans hexchange hmove

/-- What accords after a run of the same commands accords with them. -/
theorem accord_runSource_append (xs : List Command) {cs ds : List (Except Failure Command)}
    (h : Accord Session.Akin (runSource fs inc cs) (runSource fs inc ds)) :
    Accord Session.Akin (runSource fs inc (xs.map .ok ++ cs))
      (runSource fs inc (xs.map .ok ++ ds)) := by
  induction xs with
  | nil => exact h
  | cons x xs ih =>
    have hx : Accord Session.Akin (run fs inc x) (run fs inc x) := by
      rw [← run_deferred]
      exact ((related_over SymbolTable.stable_akin fs).run hinc x).accord
    rw [List.map_cons, List.cons_append, List.cons_append, runSource, runSource]
    apply hx.bind
    intro flow
    cases flow with
    | stop => exact (Agree.lift (.ok ())).accord
    | next => exact ih

end Moving

theorem agree_includerWithin (room : Nat) (h : Header) (name : String) :
    Agree Session.Akin (includerWithin fs room h name) (includerWithin fs room h name) := by
  have hrelated := related_over SymbolTable.stable_akin fs
  cases room with
  | zero =>
    rw [includerWithin, ← includeWith_deferred]
    exact hrelated.includeWith fs .none h name
  | succ room =>
    rw [includerWithin, ← includeWith_deferred, ← compile_deferred]
    exact hrelated.includeWith fs (.some (hrelated.compile fs room)) h name

theorem accord_inFile (file : String) {x y : Attempt Session Unit}
    (h : Accord Session.Akin x y) : Accord Session.Akin (inFile file x) (inFile file y) := by
  have hresult : ∀ (x : Attempt Session Unit) (s : Session), (inFile file x).result s =
      (x.result (enterFile file s) >>= fun p => .ok (p.1, leaveFile p.2)) := by
    intro x s
    have hrun : (inFile file x).run s =
        ((x.run (enterFile file s)).1, leaveFile (x.run (enterFile file s)).2) := rfl
    rw [Attempt.result, Attempt.result, hrun]
    rcases x.run (enterFile file s) with ⟨e | a, u⟩ <;> rfl
  intro s s' hs
  rw [hresult, hresult]
  have henter : (enterFile file s).Akin (enterFile file s') :=
    ⟨hs.symbols, by rw [hs.others]; rfl⟩
  apply (h _ _ henter).bind
  rintro ⟨_, u⟩ ⟨_, u'⟩ ⟨_, hu⟩
  exact .ok ⟨rfl, hu.symbols, by rw [hu.others]; rfl⟩

end Sources

/-- Sessions that differ in the order of their definitions link to the same image. -/
theorem Session.Akin.linkImage {s s' : Session} (h : s.Akin s') :
    Matched Image.Same (Session.linkImage.outcome s) (Session.linkImage.outcome s') := by
  obtain ⟨r, t, hall, hq, hg, -⟩ := SymbolTable.run_resolveAll h.symbols.quiet
  obtain ⟨r', t', hall', hq', hg', -⟩ := SymbolTable.run_resolveAll h.symbols.quiet'
  have hiff := h.symbols.resolveAll_iff
  rw [hall, hall'] at hiff
  cases r with
  | error e =>
    cases r' with
    | error e' =>
      rw [Attempt.outcome_eq_of_run (run_linkImage_error hall),
        Attempt.outcome_eq_of_run (run_linkImage_error hall')]
      exact .error e e'
    | ok x => simp at hiff
  | ok x =>
    cases r' with
    | error e' => simp at hiff
    | ok x' =>
      have hs := (SymbolTable.settled_of_resolveAll h.symbols.quiet hall).2.2
      have hs' := (SymbolTable.settled_of_resolveAll h.symbols.quiet' hall').2.2
      have ht := h.symbols.of_grows hq hq' hg hg'
      have hwrites : s'.writes = s.writes := h.same Session.writes fun _ => rfl
      have haddress : s'.link = s.link := h.same Session.link fun _ => rfl
      have hbuild : s'.build = s.build := h.same Session.build fun _ => rfl
      rw [Attempt.outcome_eq_of_run (run_linkImage hs hall),
        Attempt.outcome_eq_of_run (run_linkImage hs' hall'), ht.results_eq hs hs', hwrites,
        haddress, hbuild]
      apply Matched.rfl.bindEq
      intro memory
      apply Matched.rfl.bindEq
      intro link
      exact .ok ⟨rfl, rfl, rfl, ht.sameValues hs hs'⟩

/-- An equation without labels may stand anywhere: moved across any commands that are no blocks,
include no file and do not end the source, it leaves whether the whole can be assembled, and the
image, as they were. -/
theorem assembled_equation_moved (fs : FileSystem) (calls : List Call) (room : Nat) (file : String)
    (xs ys zs : List Command) (mnemonic : String) (pos : Position) (name : String) (v : Lazy)
    (hys : ys.all isStraight = true) :
    Matched Image.Same
      (assembled fs room file (.after fs calls)
        (xs ++ [equation mnemonic pos name v] ++ ys ++ zs))
      (assembled fs room file (.after fs calls)
        (xs ++ ys ++ [equation mnemonic pos name v] ++ zs)) := by
  have hmove := accord_move fs (agree_includerWithin fs room) mnemonic pos name v hys zs
  have hwhole := accord_inFile (Path.clean file)
    (accord_runSource_append fs (agree_includerWithin fs room) xs hmove)
  have hq := quiet_after fs calls
  have hstart : (Session.after fs calls).Akin (.after fs calls) :=
    ⟨⟨hq, hq, fun _ => rfl⟩, rfl⟩
  simp only [assembled, handle, List.append_assoc, List.map_append,
    Attempt.outcome_bind_result] at hwhole ⊢
  apply (hwhole _ _ hstart).bind
  rintro ⟨_, u⟩ ⟨_, u'⟩ ⟨-, hu⟩
  exact Session.Akin.linkImage hu

/-- A labelled word and room, both made from a constant. -/
def sized : List Command :=
  [.single ⟨["here"], ".WORD", .nowhere⟩ (.words [.offset (.symbol "size") 1]),
    .single ⟨[], ".BLKB", .nowhere⟩ (.reserveBytes (.symbol "size"))]

/-- A word that names its own address. -/
def selfNaming : List Command :=
  [.single ⟨["there"], ".WORD", .nowhere⟩ (.words [.symbol "there"])]

/-- The constant may follow the commands that need it. -/
theorem assembled_sized :
    ∃ i j, assembled noFiles 1 "a" (.after noFiles [])
        (selfNaming ++ [equation ".EQU" .nowhere "size" (.int 2)] ++ sized ++ []) = .ok i ∧
      assembled noFiles 1 "a" (.after noFiles [])
        (selfNaming ++ sized ++ [equation ".EQU" .nowhere "size" (.int 2)] ++ []) = .ok j ∧
      i.Same j ∧ i.data = [0, 2, 3, 0, 0, 0] := by
  have hmatched := assembled_equation_moved noFiles [] 1 "a" selfNaming sized [] ".EQU" .nowhere
    "size" (.int 2) (by decide)
  have hdata : (assembled noFiles 1 "a" (.after noFiles [])
      (selfNaming ++ [equation ".EQU" .nowhere "size" (.int 2)] ++ sized ++ [])).toOption.map
        Image.data = some [0, 2, 3, 0, 0, 0] := by
    have hread : ((handle noFiles 1 "a"
        (selfNaming ++ [equation ".EQU" .nowhere "size" (.int 2)] ++ sized ++ [])).outcome
          (.after noFiles [])).toOption = some () := by decide +kernel
    rw [assembled, Attempt.outcome_bind_ok (Prod.ext (toOption_eq_some.mp hread) rfl)]
    refine (data_of_fits [([0], 512), ([2], 513), ([3], 514), ([0], 515), ([0, 0], 516)] 512
      ?_ ?_ ?_ ?_ ?_).trans ?_
    all_goals decide +kernel
  revert hmatched hdata
  generalize assembled _ _ _ _ _ = x
  generalize assembled _ _ _ _ _ = y
  intro hmatched hdata
  cases hmatched with
  | error e e' => cases hdata
  | ok hsame => exact ⟨_, _, rfl, rfl, hsame, Option.some.inj hdata⟩

end Eleven.Assembly

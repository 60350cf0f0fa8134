import Eleven.Proofs.Assembly.Backend
import Eleven.Proofs.Assembly.Linking
import Eleven.Proofs.Lazy.Agreement

/-! Sessions over related tables: commands read nothing of a table but its bindings, so they do the
same in both. -/
namespace Eleven.Assembly

open Eleven.Files (FileSystem)
open Eleven.Source (Header Operation)

section Operations

variable (t : SymbolTable)

theorem writeBytes_setSymbols (vs : List Lazy) (pos : Position) (s : Session) :
    (s.setSymbols t).writeBytes vs pos = (s.writeBytes vs pos).setSymbols t := by
  induction vs generalizing s with
  | nil => rfl
  | cons v vs ih => exact ih (s.writeByte v pos)

theorem writeWords_setSymbols (vs : List Lazy) (pos : Position) (s : Session) :
    (s.setSymbols t).writeWords vs pos = (s.writeWords vs pos).setSymbols t := by
  induction vs generalizing s with
  | nil => rfl
  | cons v vs ih => exact ih (s.writeWord v pos)

theorem writeInstruction_setSymbols (s : Session) (h : Header) (os : List Source.Operand) :
    writeInstruction (s.setSymbols t) h os =
      (writeInstruction s h os).map (Session.setSymbols t) := by
  unfold writeInstruction
  cases Machine.Instruction.ofName? h.mnemonic with
  | none => rfl
  | some i =>
    change (encode i os s.pc h.position >>= fun words =>
      .ok ((s.setSymbols t).writeWords words h.position)) = _
    dsimp only
    cases encode i os s.pc h.position with
    | error e => rfl
    | ok words => exact congrArg Except.ok (writeWords_setSymbols t words h.position s)

theorem writeText_setSymbols (s : Session) (pos : Position) (text : String)
    (ending : List Int64) :
    writeText (s.setSymbols t) pos text ending =
      (writeText s pos text ending).map (Session.setSymbols t) := by
  have hkoi8r : (s.setSymbols t).koi8r = s.koi8r := rfl
  unfold writeText
  rw [hkoi8r]
  cases textBytes s.koi8r text <;> rfl

theorem insertFile_setSymbols (fs : FileSystem) (s : Session) (pos : Position) (name : String) :
    insertFile fs (s.setSymbols t) pos name =
      (insertFile fs s pos name).map (Session.setSymbols t) := by
  unfold insertFile
  dsimp only
  cases fs.read (Path.resolve pos.file name) <;> rfl

/-- Only an equation looks at the symbols. -/
theorem apply_setSymbols (fs : FileSystem) (h : Header) {o : Operation}
    (ho : ∀ name v, o ≠ .equate name v) (s : Session) :
    apply fs h o (s.setSymbols t) = (apply fs h o s).map (Session.setSymbols t) := by
  cases o with
  | equate name v => exact absurd rfl (ho name v)
  | instruction os => exact writeInstruction_setSymbols t s h os
  | ascii text => exact writeText_setSymbols t s h.position text []
  | asciz text => exact writeText_setSymbols t s h.position text [0]
  | insertFile name => exact insertFile_setSymbols t fs s h.position name
  | bytes vs => exact congrArg Except.ok (writeBytes_setSymbols t vs h.position s)
  | words vs => exact congrArg Except.ok (writeWords_setSymbols t vs h.position s)
  | dialect name =>
    unfold apply
    by_cases hname : name ∈ dialects
    · simp only [hname, if_true]
      rfl
    · simp only [hname, if_false]
      rfl
  | _ => rfl

/-- Only an equation changes them. -/
theorem symbols_of_apply (fs : FileSystem) (h : Header) {o : Operation}
    (ho : ∀ name v, o ≠ .equate name v) {s u : Session} (happly : apply fs h o s = .ok u) :
    u.symbols = s.symbols := by
  have hself := apply_setSymbols s.symbols fs h ho s
  change apply fs h o s = _ at hself
  rw [happly] at hself
  exact (congrArg Session.symbols (Except.ok.inj hself)).trans rfl

end Operations

/-- Sessions that differ at most in their tables, which are related. -/
structure Session.Over (T : SymbolTable → SymbolTable → Prop) (s s' : Session) : Prop where
  symbols : T s.symbols s'.symbols
  others : s' = s.setSymbols s'.symbols

section Over

variable {T : SymbolTable → SymbolTable → Prop} {s s' : Session}

theorem Session.Over.setSymbols (h : s.Over T s') {t t' : SymbolTable} (ht : T t t') :
    (s.setSymbols t).Over T (s'.setSymbols t') := by
  refine ⟨ht, ?_⟩
  rw [h.others]
  rfl

/-- What does not depend on the symbols is the same. -/
theorem Session.Over.same (h : s.Over T s') {α : Type} (f : Session → α)
    (hf : ∀ t, f (s.setSymbols t) = f s) : f s' = f s :=
  (congrArg f h.others).trans (hf s'.symbols)

theorem agree_onSymbols {α : Type} {x y : Attempt SymbolTable α} (h : Agree T x y) :
    Agree (Session.Over T) (Session.onSymbols x) (Session.onSymbols y) := by
  intro s s' hs
  obtain ⟨r, t, t', hx, hy, ht⟩ := h s.symbols s'.symbols hs.symbols
  exact ⟨r, _, _, run_onSymbols hx, run_onSymbols hy, hs.setSymbols ht⟩

section Stable

variable (hT : SymbolTable.Stable T)
include hT

theorem Session.Over.define (h : s.Over T s') (name : String) (v : Lazy) (pos : Position) :
    (∃ e, s.define name v pos = .error e ∧ s'.define name v pos = .error e) ∨
      ∃ u u', s.define name v pos = .ok u ∧ s'.define name v pos = .ok u' ∧ u.Over T u' := by
  unfold Session.define
  rcases hT.define h.symbols name v pos with ⟨e, he, he'⟩ | ⟨t, t', ht, ht', hu⟩
  · exact .inl ⟨e, by rw [he, error_bind], by rw [he', error_bind]⟩
  · exact .inr ⟨_, _, by rw [ht, ok_bind], by rw [ht', ok_bind], h.setSymbols hu⟩

theorem agree_label (pos : Position) (name : String) :
    Agree (Session.Over T) (Attempt.update fun s => s.define name s.pc pos)
      (Attempt.update fun s => s.define name s.pc pos) := by
  refine Agree.update fun s s' h => ?_
  have hpc : s'.pc = s.pc := h.same Session.pc fun _ => rfl
  rw [hpc]
  exact h.define hT name s.pc pos

theorem agree_apply (fs : FileSystem) (h : Header) (o : Operation) :
    Agree (Session.Over T) (Attempt.update (apply fs h o)) (Attempt.update (apply fs h o)) := by
  refine Agree.update fun s s' hs => ?_
  by_cases ho : ∃ name v, o = .equate name v
  · obtain ⟨name, v, rfl⟩ := ho
    exact hs.define hT name v h.position
  · have hother : ∀ name v, o ≠ .equate name v := fun name v heq => ho ⟨name, v, heq⟩
    have hs' := apply_setSymbols s'.symbols fs h hother s
    rw [← hs.others] at hs'
    cases happly : apply fs h o s with
    | error e =>
      rw [happly] at hs'
      exact .inl ⟨e, rfl, hs'⟩
    | ok u =>
      rw [happly] at hs'
      refine .inr ⟨u, u.setSymbols s'.symbols, rfl, hs', ?_, rfl⟩
      rw [symbols_of_apply fs h hother happly]
      exact hs.symbols

theorem agree_repeatCount (pos : Position) (count : Lazy) :
    Agree (Session.Over T) (repeatCount pos count) (repeatCount pos count) := by
  refine Agree.mapFailure _ ((agree_onSymbols (SymbolTable.agree_resolveInt hT count)).bind fun n => ?_)
  by_cases hn : n < 0
  · simp only [hn, if_true]
    exact Agree.lift (.error _)
  · simp only [hn, if_false]
    exact Agree.lift (.ok _)

theorem related_over (fs : FileSystem) :
    Backend.Related (Agree (Session.Over T)) (deferred fs) (deferred fs) where
  lift := Agree.lift
  bind := Agree.bind
  label := agree_label hT
  operation := agree_apply hT fs
  count := agree_repeatCount hT
  openFiles s s' h := by
    have hfiles : s'.files = s.files := h.same Session.files fun _ => rfl
    refine ⟨.ok s.files, s, s', rfl, ?_, h⟩
    rw [← hfiles]
    rfl
  inFile file {x y} hxy := by
    intro s s' h
    obtain ⟨r, u, u', hx, hy, hu⟩ := hxy (enterFile file s) (enterFile file s')
      ⟨h.symbols, by rw [h.others]; rfl⟩
    refine ⟨r, leaveFile u, leaveFile u', ?_, ?_, hu.symbols, by rw [hu.others]; rfl⟩
    · rw [Backend.run_inFile]
      change ((x.run (enterFile file s)).1, leaveFile (x.run (enterFile file s)).2) = _
      rw [hx]
    · rw [Backend.run_inFile]
      change ((y.run (enterFile file s')).1, leaveFile (y.run (enterFile file s')).2) = _
      rw [hy]

theorem agree_addSource (fs : FileSystem) (name text : String) :
    Agree (Session.Over T) (Session.addSource fs name text) (Session.addSource fs name text) := by
  rw [← addSource_deferred]
  exact (related_over hT fs).addSource fs name text

theorem agree_addFile (fs : FileSystem) (path : String) :
    Agree (Session.Over T) (Session.addFile fs path) (Session.addFile fs path) := by
  unfold Session.addFile
  cases fs.read path with
  | error f => exact Agree.lift (.error _)
  | ok bytes => exact agree_addSource hT fs path _

end Stable

end Over

end Eleven.Assembly

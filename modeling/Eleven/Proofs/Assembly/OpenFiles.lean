import Eleven.Proofs.Assembly.Backend

/-! The files that are open are those of the includes around a command. No command leaves others
behind. -/
namespace Eleven.Assembly

open Eleven.Files (FileSystem)
open Eleven.Source (Header Operation Command)

/-- The computation leaves the files that are open as they are. -/
def KeepsFiles {α : Type} (x : Attempt Session α) : Prop := ∀ s, (x.run s).2.files = s.files

section KeepsFiles

variable {α β : Type} {fs : FileSystem} {x : Attempt Session α}

theorem KeepsFiles.of_run (hx : KeepsFiles x) {s u : Session} {r : Except Failure α}
    (h : x.run s = (r, u)) : u.files = s.files := by
  rw [← hx s, h]

theorem KeepsFiles.bind (hx : KeepsFiles x) {f : α → Attempt Session β}
    (hf : ∀ a, KeepsFiles (f a)) : KeepsFiles (x >>= f) := by
  intro s
  rcases hrun : x.run s with ⟨e | a, u⟩
  · rw [Attempt.run_bind_error hrun]
    exact hx.of_run hrun
  · rw [Attempt.run_bind_ok hrun, hf a u]
    exact hx.of_run hrun

theorem keepsFiles_update {f : Session → Except Failure Session}
    (h : ∀ s u, f s = .ok u → u.files = s.files) : KeepsFiles (Attempt.update f) := by
  intro s
  rw [Attempt.update, Attempt.run_of]
  cases hf : f s with
  | error e => rfl
  | ok u => exact h s u hf

theorem files_writeBytes (vs : List Lazy) (pos : Position) (s : Session) :
    (s.writeBytes vs pos).files = s.files := by
  induction vs generalizing s with
  | nil => rfl
  | cons v vs ih => exact ih (s.writeByte v pos)

theorem files_writeWords (vs : List Lazy) (pos : Position) (s : Session) :
    (s.writeWords vs pos).files = s.files := by
  induction vs generalizing s with
  | nil => rfl
  | cons v vs ih => exact ih (s.writeWord v pos)

theorem files_of_define {s u : Session} {name : String} {v : Lazy} {pos : Position}
    (h : s.define name v pos = .ok u) : u.files = s.files := by
  obtain ⟨t, -, ht⟩ := bind_eq_ok.1 h
  cases ht
  rfl

theorem files_of_writeText {s u : Session} {pos : Position} {text : String} {ending : List Int64}
    (h : writeText s pos text ending = .ok u) : u.files = s.files := by
  unfold writeText at h
  split at h
  · cases h
    rfl
  · cases h

theorem files_of_insertFile {s u : Session} {pos : Position} {name : String}
    (h : insertFile fs s pos name = .ok u) : u.files = s.files := by
  unfold insertFile at h
  dsimp only at h
  split at h
  · cases h
    rfl
  · cases h

theorem files_of_writeInstruction {s u : Session} {h : Header} {os : List Source.Operand}
    (hwrite : writeInstruction s h os = .ok u) : u.files = s.files := by
  unfold writeInstruction at hwrite
  split at hwrite
  · cases hwrite
  · obtain ⟨words, -, hwords⟩ := bind_eq_ok.1 hwrite
    cases hwords
    exact files_writeWords words h.position s

/-- An operation opens no file and closes none. -/
theorem files_of_apply {s u : Session} {h : Header} {o : Operation}
    (happly : apply fs h o s = .ok u) : u.files = s.files := by
  cases o with
  | instruction os => exact files_of_writeInstruction happly
  | bytes vs =>
    cases happly
    exact files_writeBytes vs h.position s
  | words vs =>
    cases happly
    exact files_writeWords vs h.position s
  | ascii text => exact files_of_writeText happly
  | asciz text => exact files_of_writeText happly
  | equate name v => exact files_of_define happly
  | dialect name =>
    by_cases hname : name ∈ dialects
    · simp only [apply, hname, if_true] at happly
      cases happly
      rfl
    · simp only [apply, hname, if_false] at happly
      cases happly
  | insertFile name => exact files_of_insertFile happly
  | otherMachine => cases happly
  | _ =>
    cases happly
    rfl

theorem keepsFiles_onSymbols (act : Attempt SymbolTable α) :
    KeepsFiles (Session.onSymbols act) := fun _ => rfl

theorem keepsFiles_repeatCount (pos : Position) (count : Lazy) :
    KeepsFiles (repeatCount pos count) := by
  intro s
  rw [repeatCount, Attempt.run_mapFailure]
  refine KeepsFiles.bind (keepsFiles_onSymbols _) (fun n => ?_) s
  split
  · exact fun _ => rfl
  · exact fun _ => rfl

/-- Whatever an assembler does, it leaves the files that are open as it finds them. -/
theorem related_keepsFiles (fs : FileSystem) :
    Backend.Related (fun x _ => KeepsFiles x) (deferred fs) (deferred fs) where
  lift _ _ := rfl
  bind hx hf := hx.bind hf
  label _ _ := keepsFiles_update fun _ _ h => files_of_define h
  operation _ _ := keepsFiles_update fun _ _ h => files_of_apply h
  count := keepsFiles_repeatCount
  openFiles _ := rfl
  inFile file x _ hx := by
    intro s
    have hinside : (x.run (enterFile file s)).2.files = file :: s.files := hx (enterFile file s)
    rw [Backend.run_inFile]
    change (x.run (enterFile file s)).2.files.tail = s.files
    rw [hinside, List.tail_cons]

theorem keepsFiles_defineLabels (fs : FileSystem) (pos : Position) (names : List String) :
    KeepsFiles (defineLabels pos names) := by
  rw [← labels_deferred fs]
  exact (related_keepsFiles fs).labels pos names

theorem keepsFiles_update_apply (fs : FileSystem) (h : Header) (o : Operation) :
    KeepsFiles (Attempt.update (apply fs h o)) := (related_keepsFiles fs).operation h o

variable {inc : Includer} (hinc : ∀ h name, KeepsFiles (inc h name))
include hinc

theorem keepsFiles_run (c : Command) : KeepsFiles (run fs inc c) := by
  rw [← run_deferred]
  exact @Backend.Related.run _ _ _ _ _ (related_keepsFiles fs) inc inc hinc c

theorem keepsFiles_runBody (cs : List Command) : KeepsFiles (runBody fs inc cs) := by
  rw [← runBody_deferred]
  exact @Backend.Related.runBody _ _ _ _ _ (related_keepsFiles fs) inc inc hinc cs

end KeepsFiles

theorem keepsFiles_includeWith (fs : FileSystem)
    {compile? : Option (String → String → Attempt Session Unit)}
    (hc : ∀ compile ∈ compile?, ∀ file text, KeepsFiles (compile file text)) (h : Header)
    (name : String) : KeepsFiles (includeWith fs compile? h name) := by
  rw [← includeWith_deferred]
  refine @Backend.Related.includeWith _ _ _ _ _ (related_keepsFiles fs) fs compile? compile? ?_
    h name
  cases compile? with
  | none => exact .none
  | some compile => exact .some (hc compile rfl)

theorem keepsFiles_compile (fs : FileSystem) (room : Nat) (file text : String) :
    KeepsFiles (compile fs room file text) := by
  rw [← compile_deferred]
  exact (related_keepsFiles fs).compile fs room file text

end Eleven.Assembly

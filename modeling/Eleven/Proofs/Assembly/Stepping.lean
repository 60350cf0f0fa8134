import Eleven.Proofs.Assembly.OpenFiles
import Eleven.Proofs.Source.Progress
import Mathlib.Logic.Function.Iterate

/-! Assembling step by step. The steps are bounded by nothing but the text of the files and the
check that is made before one is opened. They come to an end all the same, and where the assembler
of this library does. -/
namespace Eleven.Assembly

open Eleven.Files (FileSystem)
open Eleven.Source (Header Command Reader)

/-- Work that goes on when what has been begun inside it is done. -/
inductive Frame where
  /-- The commands left of one round of a block. -/
  | round (rest : List Command)
  /-- The rounds left of a block. -/
  | block (body : List Command) (left : Nat)
  /-- What is left of an open file. -/
  | file (rest : Reader)

namespace Frame

def isFile : Frame → Bool
  | .file _ => true
  | _ => false

/-- The session once the work is given up or finished. -/
def close : Frame → Session → Session
  | .file _, s => leaveFile s
  | _, s => s

end Frame

/-- A moment of an assembly: what came of the last thing done, the work that is left, innermost
first, and the session. -/
structure Moment where
  signal : Except Failure Flow
  frames : List Frame
  session : Session

namespace Moment

/-- Goes on after a success. A failure is left to the frames. -/
def after {α : Type} (r : Except Failure α × Session) (frames : List Frame)
    (f : α → Session → Moment) : Moment :=
  match r with
  | (.ok a, s) => f a s
  | (.error e, s) => ⟨.error e, frames, s⟩

/-- The moment a file has been opened. -/
def enter (file text : String) (frames : List Frame) (s : Session) : Moment :=
  ⟨.ok .next, .file (Reader.ofSource file text) :: frames, enterFile (Path.clean file) s⟩

/-- A file is opened unless it is open already, or as many files are open as may be. -/
def openIncluded (fs : FileSystem) (h : Header) (name : String) (frames : List Frame)
    (s : Session) : Moment :=
  let path := Path.resolve h.position.file name
  if path ∈ s.files then ⟨.error ((Problem.circularInclude path).failure h.position), frames, s⟩
  else if maxIncludeDepth ≤ s.files.length then
    ⟨.error ((Problem.includesTooDeep maxIncludeDepth).failure h.position), frames, s⟩
  else match fs.read path with
    | .error f =>
      ⟨.error ((Problem.cannotInclude path f).failureOf h.position (.file f)), frames, s⟩
    | .ok bytes => enter path (Text.decodeUtf8 bytes) frames s

/-- Begins a command: its labels, then an operation, a file or a block. -/
def perform (fs : FileSystem) (frames : List Frame) (s : Session) (c : Command) : Moment :=
  after ((defineLabels c.header.position c.header.labels).run s) frames fun _ s =>
    match c with
    | .single _ .endOfSource => ⟨.ok .stop, frames, s⟩
    | .single h (.includeFile name) => openIncluded fs h name frames s
    | .single h o =>
      after ((Attempt.update (apply fs h o)).run s) frames fun _ s => ⟨.ok .next, frames, s⟩
    | .repetition h count body =>
      after ((repeatCount h.position count).run s) frames fun n s =>
        ⟨.ok .next, .block body n :: frames, s⟩

/-- The next moment. A failure, and the end of a source, close the innermost frame. Nothing happens
any more once no work is left. -/
def advance (fs : FileSystem) : Moment → Moment
  | ⟨signal, [], s⟩ => ⟨signal, [], s⟩
  | ⟨.error e, f :: frames, s⟩ => ⟨.error e, frames, f.close s⟩
  | ⟨.ok .stop, f :: frames, s⟩ => ⟨.ok .next, frames, f.close s⟩
  | ⟨.ok .next, .round [] :: frames, s⟩ => ⟨.ok .next, frames, s⟩
  | ⟨.ok .next, .round (c :: cs) :: frames, s⟩ => perform fs (.round cs :: frames) s c
  | ⟨.ok .next, .block _ 0 :: frames, s⟩ => ⟨.ok .next, frames, s⟩
  | ⟨.ok .next, .block body (n + 1) :: frames, s⟩ =>
    ⟨.ok .next, .round body :: .block body n :: frames, s⟩
  | ⟨.ok .next, .file r :: frames, s⟩ =>
    match r.next with
    | (none, _) => ⟨.ok .next, frames, leaveFile s⟩
    | (some (.error e), rest) => ⟨.error e, .file rest :: frames, s⟩
    | (some (.ok c), rest) => perform fs (.file rest :: frames) s c

/-- The moment an input is given to a session. -/
def start (fs : FileSystem) (s : Session) : Input → Moment
  | .source name text => enter name text [] s
  | .file path =>
    match fs.read path with
    | .error f => ⟨.error ((Problem.cannotRead path f).failureOf .nowhere (.file f)), [], s⟩
    | .ok bytes => enter path (Text.decodeUtf8 bytes) [] s

/-- What has come of an assembly. -/
def outcome (m : Moment) : Except Failure Unit := m.signal.map fun _ => ()

/-- The moment at which `x` has been carried out. -/
def done (x : Attempt Session Flow) (s : Session) (frames : List Frame) : Moment :=
  ⟨(x.run s).1, frames, (x.run s).2⟩

/-- The moment at which `x` has been carried out and work goes on behind it. -/
def passed {α : Type} (x : Attempt Session α) (s : Session) (frames : List Frame) : Moment :=
  ⟨(x.run s).1.map fun _ => .next, frames, (x.run s).2⟩

end Moment

/-- Adds one input to a session. -/
def Input.added (fs : FileSystem) : Input → Attempt Session Unit
  | .source name text => Session.addSource fs name text
  | .file path => Session.addFile fs path

/-- The moment after a number of steps. -/
def momentAt (fs : FileSystem) (s : Session) (i : Input) (n : Nat) : Moment :=
  (Moment.advance fs)^[n] (.start fs s i)

/-- One moment leads to another after some number of steps. -/
def Leads (fs : FileSystem) (m m' : Moment) : Prop := ∃ n, (Moment.advance fs)^[n] m = m'

section Leads

variable {fs : FileSystem} {m m' m'' : Moment}

theorem Leads.refl (m : Moment) : Leads fs m m := ⟨0, rfl⟩

theorem Leads.trans (h : Leads fs m m') (h' : Leads fs m' m'') : Leads fs m m'' := by
  obtain ⟨n, hn⟩ := h
  obtain ⟨n', hn'⟩ := h'
  refine ⟨n' + n, ?_⟩
  rw [Function.iterate_add_apply, hn, hn']

theorem leads_advance (m : Moment) : Leads fs m (m.advance fs) := ⟨1, rfl⟩

theorem Leads.of_advance (h : Leads fs (m.advance fs) m') : Leads fs m m' :=
  (leads_advance m).trans h

end Leads

section Sequence

variable {fs : FileSystem} {α : Type} {frames : List Frame} {s : Session}

theorem passed_eq_done (x : Attempt Session α) :
    Moment.passed x s frames = Moment.done (x >>= fun _ => pure .next) s frames := by
  unfold Moment.passed Moment.done
  rw [Attempt.run_bind]
  rcases x.run s with ⟨e | a, u⟩ <;> rfl

/-- What follows a success may rely on it. -/
theorem leads_after (x : Attempt Session α) {f : α → Session → Moment}
    {g : α → Attempt Session Flow}
    (h : ∀ a u, x.run s = (.ok a, u) → Leads fs (f a u) (Moment.done (g a) u frames)) :
    Leads fs (Moment.after (x.run s) frames f) (Moment.done (x >>= g) s frames) := by
  unfold Moment.done
  rw [Attempt.run_bind]
  rcases hx : x.run s with ⟨e | a, u⟩
  · exact Leads.refl _
  · exact h a u hx

end Sequence

section Simulation

variable {fs : FileSystem} {depth : Nat} {inc : Includer}

/-- Where `depth` files are open, `inc` does what opening a file step by step leads to. -/
structure Includes (fs : FileSystem) (depth : Nat) (inc : Includer) : Prop where
  keeps : ∀ h name, KeepsFiles (inc h name)
  leads : ∀ h name frames (s : Session), s.files.length = depth →
    Leads fs (Moment.openIncluded fs h name frames s) (Moment.passed (inc h name) s frames)

/-- The rounds of a block, given one round. -/
theorem leads_block {body : List Command} {round : Attempt Session Flow}
    (hkeeps : KeepsFiles round)
    (hround : ∀ frames (s : Session), s.files.length = depth →
      Leads fs ⟨.ok .next, .round body :: frames, s⟩ (Moment.passed round s frames))
    (n : Nat) (frames : List Frame) (s : Session) (hs : s.files.length = depth) :
    Leads fs ⟨.ok .next, .block body n :: frames, s⟩ (Moment.passed (replay round n) s frames) := by
  induction n generalizing s with
  | zero => exact leads_advance _
  | succ n ih =>
    apply Leads.of_advance
    refine Leads.trans (hround (.block body n :: frames) s hs) ?_
    unfold Moment.passed replay
    rcases hrun : round.run s with ⟨e | flow, u⟩
    · -- the failure closes the frame of the block too
      rw [Attempt.run_bind_error hrun]
      exact leads_advance _
    · rw [Attempt.run_bind_ok hrun]
      have hfiles : u.files = s.files := hkeeps.of_run hrun
      exact ih u (hfiles ▸ hs)

mutual

theorem leads_perform (hinc : Includes fs depth inc) (c : Command) (frames : List Frame)
    (s : Session) (hs : s.files.length = depth) :
    Leads fs (Moment.perform fs frames s c) (Moment.done (run fs inc c) s frames) := by
  cases c with
  | single h o =>
    unfold run
    refine leads_after _ fun _ u hu => ?_
    have hfiles : u.files = s.files := (keepsFiles_defineLabels fs h.position h.labels).of_run hu
    have hlength : u.files.length = depth := hfiles ▸ hs
    cases o with
    | endOfSource => exact Leads.refl _
    | includeFile name =>
      rw [← passed_eq_done]
      exact hinc.leads h name frames u hlength
    | _ => exact leads_after _ fun _ _ _ => Leads.refl _
  | repetition h count body =>
    unfold run
    refine leads_after _ fun _ u hu => leads_after _ fun n v hv => ?_
    have hlabels : u.files = s.files := (keepsFiles_defineLabels fs h.position h.labels).of_run hu
    have hcount : v.files = u.files := (keepsFiles_repeatCount h.position count).of_run hv
    have hlength : v.files.length = depth := by rw [hcount, hlabels, hs]
    rw [← passed_eq_done]
    exact leads_block (keepsFiles_runBody hinc.keeps body) (leads_round hinc body) n frames v
      hlength

/-- The end of a source inside a round ends the round. -/
theorem leads_round (hinc : Includes fs depth inc) (cs : List Command) (frames : List Frame)
    (s : Session) (hs : s.files.length = depth) :
    Leads fs ⟨.ok .next, .round cs :: frames, s⟩ (Moment.passed (runBody fs inc cs) s frames) := by
  cases cs with
  | nil =>
    unfold runBody
    exact leads_advance _
  | cons c cs =>
    apply Leads.of_advance
    refine Leads.trans (leads_perform hinc c (.round cs :: frames) s hs) ?_
    unfold Moment.passed Moment.done runBody
    rcases hrun : (run fs inc c).run s with ⟨e | flow, u⟩
    · rw [Attempt.run_bind_error hrun]
      exact leads_advance _
    · rw [Attempt.run_bind_ok hrun]
      have hfiles : u.files = s.files := (keepsFiles_run hinc.keeps c).of_run hrun
      cases flow with
      | stop => exact leads_advance _
      | next => exact leads_round hinc cs frames u (hfiles ▸ hs)

end

/-- A file is read command by command, and left in the end whatever happens. -/
theorem leads_file (hinc : Includes fs depth inc) (room : Nat) (r : Reader)
    (hr : r.lines.length ≤ room) (frames : List Frame) (s : Session)
    (hs : s.files.length = depth) :
    Leads fs ⟨.ok .next, .file r :: frames, s⟩
      (Moment.passed ((runSource fs inc (Reader.readAll room r)).ensuring leaveFile) s frames) := by
  induction room generalizing r s with
  | zero =>
    have hnone := Reader.next_of_lines_nil (List.length_eq_zero_iff.1 (Nat.le_zero.1 hr))
    apply Leads.of_advance
    rcases hnext : r.next with ⟨x, after⟩
    rw [hnext] at hnone
    cases hnone
    rw [Moment.advance, hnext]
    exact Leads.refl _
  | succ room ih =>
    apply Leads.of_advance
    rw [Moment.advance, Reader.readAll]
    rcases hnext : r.next with ⟨_ | x, after⟩
    · exact Leads.refl _
    · have hless := Reader.length_lines_lt hnext
      cases x with
      | error e => exact leads_advance _
      | ok c =>
        refine Leads.trans (leads_perform hinc c (.file after :: frames) s hs) ?_
        unfold Moment.passed Moment.done
        rw [Attempt.ensuring, Attempt.run_of, runSource]
        rcases hrun : (run fs inc c).run s with ⟨e | flow, u⟩
        · rw [Attempt.run_bind_error hrun]
          exact leads_advance _
        · rw [Attempt.run_bind_ok hrun]
          have hfiles : u.files = s.files := (keepsFiles_run hinc.keeps c).of_run hrun
          cases flow with
          | stop => exact leads_advance _
          | next => exact ih after (by omega) u (hfiles ▸ hs)

/-- A text is read as a file that is open for as long as that takes. -/
theorem leads_inFile {file : String} {s : Session} (hinc : Includes fs (s.files.length + 1) inc)
    (text : String) (frames : List Frame) :
    Leads fs (Moment.enter file text frames s) (Moment.passed
      (inFile (Path.clean file) (runSource fs inc (Reader.commands file text))) s frames) := by
  have hopen : Moment.passed
      (inFile (Path.clean file) (runSource fs inc (Reader.commands file text))) s frames =
        Moment.passed ((runSource fs inc (Reader.commands file text)).ensuring leaveFile)
          (enterFile (Path.clean file) s) frames := rfl
  rw [hopen]
  exact leads_file hinc (Reader.ofSource file text).lines.length (Reader.ofSource file text)
    (Nat.le_refl _) frames (enterFile (Path.clean file) s) rfl

end Simulation

section Files

variable {fs : FileSystem} {depth : Nat}

theorem run_includeWith (compile? : Option (String → String → Attempt Session Unit)) (h : Header)
    (name : String) (s : Session) :
    (includeWith fs compile? h name).run s =
      if Path.resolve h.position.file name ∈ s.files then
        (.error ((Problem.circularInclude (Path.resolve h.position.file name)).failure h.position), s)
      else (Backend.included fs compile? h.position (Path.resolve h.position.file name)).run s := by
  rw [← includeWith_deferred]
  show (ite _ _ _ : Attempt Session Unit).run s = _
  split <;> rfl

/-- Room for another file is missing exactly where as many are open as may be. -/
theorem includes_includeWith {compile? : Option (String → String → Attempt Session Unit)}
    (hroom : compile? = none ↔ maxIncludeDepth ≤ depth)
    (hkeeps : ∀ compile ∈ compile?, ∀ file text, KeepsFiles (compile file text))
    (hleads : ∀ compile ∈ compile?, ∀ file text frames (s : Session), s.files.length = depth →
      Leads fs (Moment.enter file text frames s) (Moment.passed (compile file text) s frames)) :
    Includes fs depth (includeWith fs compile?) where
  keeps := keepsFiles_includeWith fs hkeeps
  leads h name frames s hs := by
    unfold Moment.openIncluded Moment.passed
    rw [run_includeWith]
    by_cases hopen : Path.resolve h.position.file name ∈ s.files
    · simp only [hopen, if_true]
      exact Leads.refl _
    · simp only [hopen, if_false, hs, ← hroom]
      cases compile? with
      | none => exact Leads.refl _
      | some compile =>
        simp only [reduceCtorEq, if_false, Backend.included]
        cases fs.read (Path.resolve h.position.file name) with
        | error f => exact Leads.refl _
        | ok bytes => exact hleads compile rfl _ _ frames s hs

/-- The room that is left and the files that are open make up what may be open. -/
theorem leads_compile (room : Nat) (file text : String) (frames : List Frame) (s : Session)
    (hs : s.files.length + room + 1 = maxIncludeDepth) :
    Leads fs (Moment.enter file text frames s)
      (Moment.passed (compile fs room file text) s frames) := by
  induction room generalizing file text frames s with
  | zero =>
    have hinc : Includes fs (s.files.length + 1) (includeWith fs none) :=
      includes_includeWith (by simp [← hs]) (by simp) (by simp)
    exact leads_inFile hinc text frames
  | succ room ih =>
    have hinc : Includes fs (s.files.length + 1) (includeWith fs (some (compile fs room))) :=
      includes_includeWith (by simp; omega)
        (by simpa using keepsFiles_compile fs room)
        (by
          rintro _ ⟨⟩ file text frames u hu
          exact ih file text frames u (by omega))
    exact leads_inFile hinc text frames

/-- Whatever the files include, the steps end, and where the assembler does. -/
theorem leads_added (i : Input) {s : Session} (hs : s.files.length < maxIncludeDepth) :
    Leads fs (Moment.start fs s i) (Moment.passed (i.added fs) s []) := by
  have hsource (file text : String) :
      Leads fs (Moment.enter file text [] s) (Moment.passed (Session.addSource fs file text) s []) :=
    leads_compile _ file text [] s (by omega)
  cases i with
  | source name text => exact hsource name text
  | file path =>
    unfold Moment.start Input.added Session.addFile
    dsimp only
    cases fs.read path with
    | error f => exact Leads.refl _
    | ok bytes => exact hsource path _

end Files

end Eleven.Assembly

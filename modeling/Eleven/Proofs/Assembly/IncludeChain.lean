import Eleven.Proofs.Assembly.Stepping
import Eleven.Proofs.Files.Path

/-! The chain of open files. Each file that is opened is checked against the chain under its clean
path, which is also the one it is kept under. So no file is ever open twice, however it is spelled.
-/
namespace Eleven.Assembly

open Eleven.Files (FileSystem)
open Eleven.Source (Command Header Reader)

/-- A chain of files as it may come about: not too long, without repetitions, and each path in its
one clean spelling. -/
structure IsChain (files : List String) : Prop where
  length_le : files.length ≤ maxIncludeDepth
  nodup : files.Nodup
  clean : ∀ file ∈ files, Path.clean file = file

theorem isChain_nil : IsChain [] where
  length_le := Nat.zero_le _
  nodup := List.nodup_nil
  clean := by simp

theorem IsChain.tail {files : List String} (h : IsChain files) : IsChain files.tail where
  length_le := by
    have hlength := h.length_le
    rw [List.length_tail]
    omega
  nodup := h.nodup.tail
  clean file hfile := h.clean file (List.mem_of_mem_tail hfile)

theorem IsChain.cons {file : String} {files : List String} (h : IsChain files)
    (hlength : files.length < maxIncludeDepth) (hnew : file ∉ files)
    (hclean : Path.clean file = file) : IsChain (file :: files) where
  length_le := hlength
  nodup := List.nodup_cons.2 ⟨hnew, h.nodup⟩
  clean := List.forall_mem_cons.2 ⟨hclean, h.clean⟩

/-- The files of a session are a chain, and each of them belongs to a frame. -/
structure Chained (frames : List Frame) (files : List String) : Prop where
  chain : IsChain files
  length_eq : files.length = frames.countP Frame.isFile

namespace Chained

variable {fs : FileSystem} {frames : List Frame} {files : List String} {f : Frame} {s : Session}

theorem replace (f' : Frame) (h : Chained (f :: frames) files) (hf : f'.isFile = f.isFile) :
    Chained (f' :: frames) files where
  chain := h.chain
  length_eq := by
    rw [h.length_eq, List.countP_cons, List.countP_cons, hf]

theorem push (h : Chained frames files) (hf : f.isFile = false) : Chained (f :: frames) files where
  chain := h.chain
  length_eq := by
    rw [h.length_eq, List.countP_cons_of_neg (by simp [hf])]

/-- A frame that is closed takes its file with it. -/
theorem close (h : Chained (f :: frames) s.files) : Chained frames (f.close s).files := by
  have hlength := h.length_eq
  cases f with
  | file r =>
    rw [List.countP_cons_of_pos (by rfl)] at hlength
    constructor
    · exact h.chain.tail
    · show s.files.tail.length = _
      rw [List.length_tail, hlength, Nat.add_sub_cancel]
  | _ =>
    rw [List.countP_cons_of_neg (by simp [Frame.isFile])] at hlength
    exact ⟨h.chain, hlength⟩

theorem enter {file text : String} (h : Chained frames s.files)
    (hlength : s.files.length < maxIncludeDepth) (hnew : Path.clean file ∉ s.files) :
    Chained (Moment.enter file text frames s).frames
      (Moment.enter file text frames s).session.files where
  chain := h.chain.cons hlength hnew (Path.clean_clean file)
  length_eq := by
    show (Path.clean file :: s.files).length = (Frame.file _ :: frames).countP Frame.isFile
    rw [List.length_cons, h.length_eq, List.countP_cons_of_pos (by rfl)]

/-- What follows a computation may rely on the chain if the computation keeps the files. -/
theorem after {α : Type} {x : Attempt Session α} (hx : KeepsFiles x) (h : Chained frames s.files)
    {g : α → Session → Moment}
    (hg : ∀ a (u : Session), Chained frames u.files →
      Chained (g a u).frames (g a u).session.files) :
    Chained (Moment.after (x.run s) frames g).frames
      (Moment.after (x.run s) frames g).session.files := by
  rcases hrun : x.run s with ⟨e | a, u⟩
  · have hfiles : u.files = s.files := hx.of_run hrun
    exact hfiles.symm ▸ h
  · have hfiles : u.files = s.files := hx.of_run hrun
    exact hg a u (hfiles.symm ▸ h)

/-- A file is looked for in the chain under the path that it would be kept under. -/
theorem openIncluded (h : Chained frames s.files) (header : Header) (name : String) :
    Chained (Moment.openIncluded fs header name frames s).frames
      (Moment.openIncluded fs header name frames s).session.files := by
  unfold Moment.openIncluded
  dsimp only
  by_cases hopen : Path.resolve header.position.file name ∈ s.files
  · rw [if_pos hopen]
    exact h
  · rw [if_neg hopen]
    by_cases hdeep : maxIncludeDepth ≤ s.files.length
    · rw [if_pos hdeep]
      exact h
    · rw [if_neg hdeep]
      cases fs.read (Path.resolve header.position.file name) with
      | error e => exact h
      | ok bytes =>
        refine h.enter (Nat.lt_of_not_le hdeep) ?_
        rw [Path.clean_resolve]
        exact hopen

theorem perform (h : Chained frames s.files) (c : Command) :
    Chained (Moment.perform fs frames s c).frames
      (Moment.perform fs frames s c).session.files := by
  refine h.after (keepsFiles_defineLabels fs _ _) fun _ u hu => ?_
  cases c with
  | single header o =>
    cases o with
    | endOfSource => exact hu
    | includeFile name => exact hu.openIncluded header name
    | _ => exact hu.after (keepsFiles_update_apply fs _ _) fun _ _ hv => hv
  | repetition header count body =>
    exact hu.after (keepsFiles_repeatCount _ _) fun _ _ hv => hv.push rfl

/-- One step keeps the chain. -/
theorem advance {m : Moment} (h : Chained m.frames m.session.files) :
    Chained (m.advance fs).frames (m.advance fs).session.files := by
  rcases m with ⟨signal, frames, s⟩
  cases frames with
  | nil => exact h
  | cons f frames =>
    cases signal with
    | error e => exact h.close
    | ok flow =>
      cases flow with
      | stop => exact h.close
      | next =>
        cases f with
        | round rest =>
          cases rest with
          | nil => exact h.close
          | cons c rest => exact (h.replace (.round rest) rfl).perform c
        | block body left =>
          cases left with
          | zero => exact h.close
          | succ n => exact (h.replace (.block body n) rfl).push rfl
        | file r =>
          rw [Moment.advance]
          rcases r.next with ⟨_ | ⟨e | c⟩, after⟩
          · exact h.close
          · exact h.replace (.file after) rfl
          · exact (h.replace (.file after) rfl).perform c

/-- So does any number of steps. -/
theorem iterate {m : Moment} (h : Chained m.frames m.session.files) (n : Nat) :
    Chained ((Moment.advance fs)^[n] m).frames ((Moment.advance fs)^[n] m).session.files := by
  induction n with
  | zero => exact h
  | succ n ih =>
    rw [Function.iterate_succ_apply']
    exact ih.advance

theorem start (hs : s.files = []) (i : Input) :
    Chained (Moment.start fs s i).frames (Moment.start fs s i).session.files := by
  have hempty : Chained [] s.files := by
    rw [hs]
    exact ⟨isChain_nil, rfl⟩
  have henter (file text : String) : Chained (Moment.enter file text [] s).frames
      (Moment.enter file text [] s).session.files :=
    hempty.enter (by simp [hs, maxIncludeDepth]) (by simp [hs])
  cases i with
  | source name text => exact henter name text
  | file path =>
    unfold Moment.start
    dsimp only
    cases fs.read path with
    | error e => exact hempty
    | ok bytes => exact henter path _

end Chained

theorem outcome_passed (x : Attempt Session Unit) (s : Session) (frames : List Frame) :
    ((Moment.passed x s frames).outcome, (Moment.passed x s frames).session) = x.run s := by
  unfold Moment.passed Moment.outcome
  rcases x.run s with ⟨e | a, u⟩ <;> rfl

/-- Whatever the files of a file system include, from wherever and under whatever names, adding an
input comes to its end by steps that nothing bounds from outside. At no moment are more files open
than may be, or one file twice, and in the end none is. -/
theorem includes_bounded (fs : FileSystem) (i : Input) (s : Session) (hs : s.files = []) :
    (∀ n, (momentAt fs s i n).session.files.length ≤ 64 ∧
      (momentAt fs s i n).session.files.Nodup ∧
      ∀ file ∈ (momentAt fs s i n).session.files, Path.clean file = file) ∧
    ∃ n, (momentAt fs s i n).frames = [] ∧
      ((momentAt fs s i n).outcome, (momentAt fs s i n).session) = (i.added fs).run s ∧
      (momentAt fs s i n).session.files = [] := by
  have hchained (n : Nat) :
      Chained (momentAt fs s i n).frames (momentAt fs s i n).session.files :=
    (Chained.start hs i).iterate n
  constructor
  · intro n
    have hchain := (hchained n).chain
    exact ⟨hchain.length_le, hchain.nodup, hchain.clean⟩
  · obtain ⟨n, hn⟩ : Leads fs (.start fs s i) (.passed (i.added fs) s []) :=
      leads_added i (by simp [hs, maxIncludeDepth])
    have hend : momentAt fs s i n = .passed (i.added fs) s [] := hn
    have hlength := (hchained n).length_eq
    refine ⟨n, ?_⟩
    rw [hend] at hlength ⊢
    exact ⟨rfl, outcome_passed _ s [], List.length_eq_zero_iff.1 hlength⟩

/-- Two files that include each other from inside blocks, by roundabout paths. -/
def circle : FileSystem :=
  (⟨[("main.s", "nop\n.repeat 2 \x7b\n.include \"lib/../lib/part.s\"\n\x7d\n".toUTF8.toList),
    ("lib/part.s", ".repeat 2 \x7b\n.include \".././lib//../main.s\"\n\x7d\n".toUTF8.toList)]⟩ :
    Files.Collection).fileSystem

/-- The second file finds the first one open. -/
theorem includes_bounded_circle :
    (momentAt circle .new (.file "main.s") 7).session.files = ["lib/part.s", "main.s"] ∧
    (∀ n, (momentAt circle .new (.file "main.s") n).session.files.length ≤ 64 ∧
      (momentAt circle .new (.file "main.s") n).session.files.Nodup ∧
      ∀ file ∈ (momentAt circle .new (.file "main.s") n).session.files, Path.clean file = file) ∧
    ∃ n, (momentAt circle .new (.file "main.s") n).frames = [] ∧
      ((momentAt circle .new (.file "main.s") n).outcome,
          (momentAt circle .new (.file "main.s") n).session) =
        (Session.addFile circle "main.s").run .new ∧
      (momentAt circle .new (.file "main.s") n).session.files = [] :=
  ⟨by decide +kernel, includes_bounded circle (.file "main.s") .new rfl⟩

end Eleven.Assembly

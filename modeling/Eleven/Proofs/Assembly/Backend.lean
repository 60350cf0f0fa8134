import Eleven.Assembly.Compile
import Eleven.Proofs.Failure.Outcome

/-! The control flow of an assembler, apart from what its commands do. Two assemblers that agree on
the parts of commands agree on whole sources, and the assembler of this library is one of them. -/
namespace Eleven.Assembly

open Eleven.Files (FileSystem)
open Eleven.Source (Header Operation Command Reader)

/-- How an assembler carries out the parts of a command, over a state of its own. -/
structure Backend (σ : Type) where
  label : Position → String → Attempt σ Unit
  operation : Header → Operation → Attempt σ Unit
  /-- The number of rounds of a block. -/
  count : Position → Lazy → Attempt σ Nat
  /-- The files being assembled, innermost first. -/
  openFiles : Attempt σ (List String)
  enter : String → σ → σ
  leave : σ → σ

/-- A file system without files. -/
def noFiles : FileSystem := (⟨[]⟩ : Files.Collection).fileSystem

/-- What a session is given to assemble. -/
inductive Input where
  | source (name text : String)
  | file (path : String)

namespace Backend

variable {σ : Type} (b : Backend σ)

def labels (pos : Position) : List String → Attempt σ Unit
  | [] => pure ()
  | name :: names => do
    b.label pos name
    labels pos names

def replay (body : Attempt σ Flow) : Nat → Attempt σ Unit
  | 0 => pure ()
  | n + 1 => do
    let _ ← body
    replay body n

mutual

def run (includer : Header → String → Attempt σ Unit) : Command → Attempt σ Flow
  | .single h o => do
    b.labels h.position h.labels
    match o with
    | .endOfSource => pure .stop
    | .includeFile name => do
      includer h name
      pure .next
    | o => do
      b.operation h o
      pure .next
  | .repetition h count body => do
    b.labels h.position h.labels
    let n ← b.count h.position count
    replay (runBody includer body) n
    pure .next

def runBody (includer : Header → String → Attempt σ Unit) : List Command → Attempt σ Flow
  | [] => pure .next
  | c :: cs => do
    match ← run includer c with
    | .stop => pure .stop
    | .next => runBody includer cs

end

def runSource (includer : Header → String → Attempt σ Unit) :
    List (Except Failure Command) → Attempt σ Unit
  | [] => pure ()
  | .error e :: _ => throw e
  | .ok c :: rest => do
    match ← b.run includer c with
    | .stop => pure ()
    | .next => runSource includer rest

/-- Goes on inside an included file. -/
def included (fs : FileSystem) (compile? : Option (String → String → Attempt σ Unit))
    (pos : Position) (path : String) : Attempt σ Unit :=
  match compile? with
  | none => throw ((Problem.includesTooDeep maxIncludeDepth).failure pos)
  | some compile =>
    match fs.read path with
    | .error f => throw ((Problem.cannotInclude path f).failureOf pos (.file f))
    | .ok bytes => compile path (Text.decodeUtf8 bytes)

def includeWith (fs : FileSystem) (compile? : Option (String → String → Attempt σ Unit)) :
    Header → String → Attempt σ Unit := fun h name => do
  let path := Path.resolve h.position.file name
  let files ← b.openFiles
  if path ∈ files then throw ((Problem.circularInclude path).failure h.position)
  else included fs compile? h.position path

def inFile (file : String) (act : Attempt σ Unit) : Attempt σ Unit := do
  modify (b.enter file)
  act.ensuring b.leave

theorem run_inFile (file : String) (act : Attempt σ Unit) (s : σ) :
    (b.inFile file act).run s =
      ((act.run (b.enter file s)).1, b.leave (act.run (b.enter file s)).2) := rfl

def compile (fs : FileSystem) : Nat → String → String → Attempt σ Unit
  | 0, file, text =>
    b.inFile (Path.clean file) (b.runSource (b.includeWith fs none) (Reader.commands file text))
  | room + 1, file, text =>
    b.inFile (Path.clean file)
      (b.runSource (b.includeWith fs (some (compile fs room))) (Reader.commands file text))

def addSource (fs : FileSystem) (name text : String) : Attempt σ Unit := do
  let files ← b.openFiles
  b.compile fs (maxIncludeDepth - 1 - files.length) name text

def add (fs : FileSystem) : Input → Attempt σ Unit
  | .source name text => b.addSource fs name text
  | .file path =>
    match fs.read path with
    | .error f => throw ((Problem.cannotRead path f).failureOf .nowhere (.file f))
    | .ok bytes => b.addSource fs path (Text.decodeUtf8 bytes)

def addAll (fs : FileSystem) : List Input → Attempt σ Unit
  | [] => pure ()
  | i :: is => do
    b.add fs i
    addAll fs is

end Backend

section Related

variable {σ τ : Type}

/-- Two assemblers whose parts are related by a relation that passes through sequences. -/
structure Backend.Related (R : ∀ {α : Type}, Attempt σ α → Attempt τ α → Prop) (b : Backend σ)
    (b' : Backend τ) : Prop where
  lift : ∀ {α : Type} (e : Except Failure α), R (liftM e) (liftM e)
  bind : ∀ {α β : Type} {x : Attempt σ α} {y : Attempt τ α} {f : α → Attempt σ β}
    {g : α → Attempt τ β}, R x y → (∀ a, R (f a) (g a)) → R (x >>= f) (y >>= g)
  label : ∀ pos name, R (b.label pos name) (b'.label pos name)
  operation : ∀ h o, R (b.operation h o) (b'.operation h o)
  count : ∀ pos v, R (b.count pos v) (b'.count pos v)
  openFiles : R b.openFiles b'.openFiles
  inFile : ∀ file {x : Attempt σ Unit} {y : Attempt τ Unit}, R x y →
    R (b.inFile file x) (b'.inFile file y)

namespace Backend.Related

variable {R : ∀ {α : Type}, Attempt σ α → Attempt τ α → Prop} {b : Backend σ} {b' : Backend τ}
  (hr : Backend.Related R b b')
include hr

theorem pure {α : Type} (a : α) : R (Pure.pure a) (Pure.pure a) := hr.lift (.ok a)

theorem throw {α : Type} (e : Failure) :
    R (MonadExcept.throw e : Attempt σ α) (MonadExcept.throw e) := hr.lift (.error e)

theorem labels (pos : Position) (names : List String) :
    R (b.labels pos names) (b'.labels pos names) := by
  induction names with
  | nil => exact hr.pure ()
  | cons name names ih => exact hr.bind (hr.label pos name) fun _ => ih

theorem replay {x : Attempt σ Flow} {y : Attempt τ Flow} (h : R x y) (n : Nat) :
    R (Backend.replay x n) (Backend.replay y n) := by
  induction n with
  | zero => exact hr.pure ()
  | succ n ih => exact hr.bind h fun _ => ih

section Includer

variable {inc : Header → String → Attempt σ Unit} {inc' : Header → String → Attempt τ Unit}

mutual

theorem run (hinc : ∀ h name, R (inc h name) (inc' h name)) (c : Command) :
    R (b.run inc c) (b'.run inc' c) := by
  cases c with
  | single h o =>
    unfold Backend.run
    refine hr.bind (hr.labels h.position h.labels) fun _ => ?_
    split
    · exact hr.pure _
    · exact hr.bind (hinc h _) fun _ => hr.pure _
    · exact hr.bind (hr.operation h _) fun _ => hr.pure _
  | repetition h count body =>
    unfold Backend.run
    exact hr.bind (hr.labels h.position h.labels) fun _ => hr.bind (hr.count h.position count)
      fun n => hr.bind (hr.replay (runBody hinc body) n) fun _ => hr.pure _

theorem runBody (hinc : ∀ h name, R (inc h name) (inc' h name)) (cs : List Command) :
    R (b.runBody inc cs) (b'.runBody inc' cs) := by
  cases cs with
  | nil =>
    unfold Backend.runBody
    exact hr.pure _
  | cons c cs =>
    unfold Backend.runBody
    refine hr.bind (run hinc c) fun flow => ?_
    cases flow with
    | stop => exact hr.pure _
    | next => exact runBody hinc cs

end

theorem runSource (hinc : ∀ h name, R (inc h name) (inc' h name))
    (cs : List (Except Failure Command)) : R (b.runSource inc cs) (b'.runSource inc' cs) := by
  induction cs with
  | nil => exact hr.pure ()
  | cons c cs ih =>
    cases c with
    | error e => exact hr.throw e
    | ok c =>
      refine hr.bind (hr.run hinc c) fun flow => ?_
      cases flow with
      | stop => exact hr.pure ()
      | next => exact ih

end Includer

theorem included (fs : FileSystem) {compile? : Option (String → String → Attempt σ Unit)}
    {compile?' : Option (String → String → Attempt τ Unit)}
    (hc : Option.Rel (fun f g => ∀ file text, R (f file text) (g file text)) compile? compile?')
    (pos : Position) (path : String) :
    R (Backend.included fs compile? pos path) (Backend.included fs compile?' pos path) := by
  unfold Backend.included
  cases hc with
  | none => exact hr.throw _
  | some hc =>
    dsimp only
    cases fs.read path with
    | error f => exact hr.throw _
    | ok bytes => exact hc path _

theorem includeWith (fs : FileSystem) {compile? : Option (String → String → Attempt σ Unit)}
    {compile?' : Option (String → String → Attempt τ Unit)}
    (hc : Option.Rel (fun f g => ∀ file text, R (f file text) (g file text)) compile? compile?')
    (h : Header) (name : String) :
    R (b.includeWith fs compile? h name) (b'.includeWith fs compile?' h name) := by
  refine hr.bind hr.openFiles fun files => ?_
  by_cases hf : Path.resolve h.position.file name ∈ files
  · simp only [hf, if_true]
    exact hr.throw _
  · simp only [hf, if_false]
    exact hr.included fs hc _ _

theorem compile (fs : FileSystem) (room : Nat) (file text : String) :
    R (b.compile fs room file text) (b'.compile fs room file text) := by
  induction room generalizing file text with
  | zero => exact hr.inFile _ (hr.runSource (hr.includeWith fs .none) _)
  | succ room ih => exact hr.inFile _ (hr.runSource (hr.includeWith fs (.some ih)) _)

theorem addSource (fs : FileSystem) (name text : String) :
    R (b.addSource fs name text) (b'.addSource fs name text) :=
  hr.bind hr.openFiles fun _ => hr.compile fs _ name text

theorem add (fs : FileSystem) (i : Input) : R (b.add fs i) (b'.add fs i) := by
  cases i with
  | source name text => exact hr.addSource fs name text
  | file path =>
    unfold Backend.add
    dsimp only
    cases fs.read path with
    | error f => exact hr.throw _
    | ok bytes => exact hr.addSource fs path _

theorem addAll (fs : FileSystem) (is : List Input) : R (b.addAll fs is) (b'.addAll fs is) := by
  induction is with
  | nil => exact hr.pure ()
  | cons i is ih => exact hr.bind (hr.add fs i) fun _ => ih

end Backend.Related

end Related

/-- The assembler of this library: what is not known yet is left to the linker. -/
def deferred (fs : FileSystem) : Backend Session where
  label pos name := Attempt.update fun s => s.define name s.pc pos
  operation h o := Attempt.update (apply fs h o)
  count := repeatCount
  openFiles := do
    let s ← get
    pure s.files
  enter := enterFile
  leave := leaveFile

/-- Adds inputs one after the other. -/
def addInputs (fs : FileSystem) : List Input → Attempt Session Unit
  | [] => pure ()
  | .source name text :: is => do
    Session.addSource fs name text
    addInputs fs is
  | .file path :: is => do
    Session.addFile fs path
    addInputs fs is

section Deferred

variable (fs : FileSystem)

theorem labels_deferred (pos : Position) (names : List String) :
    (deferred fs).labels pos names = defineLabels pos names := by
  induction names with
  | nil => rfl
  | cons name names ih =>
    rw [Backend.labels, ih]
    rfl

theorem replay_deferred (body : Attempt Session Flow) (n : Nat) :
    Backend.replay body n = replay body n := by
  induction n with
  | zero => rfl
  | succ n ih => rw [Backend.replay, ih, replay]

mutual

theorem run_deferred (inc : Includer) (c : Command) :
    (deferred fs).run inc c = run fs inc c := by
  cases c with
  | single h o =>
    unfold Backend.run run
    rw [labels_deferred]
    rfl
  | repetition h count body =>
    unfold Backend.run run
    rw [labels_deferred, runBody_deferred inc body]
    simp only [replay_deferred]
    rfl

theorem runBody_deferred (inc : Includer) (cs : List Command) :
    (deferred fs).runBody inc cs = runBody fs inc cs := by
  cases cs with
  | nil => unfold Backend.runBody runBody; rfl
  | cons c cs =>
    unfold Backend.runBody runBody
    rewrite [run_deferred inc c, runBody_deferred inc cs]
    rfl

end

theorem runSource_deferred (inc : Includer) (cs : List (Except Failure Command)) :
    (deferred fs).runSource inc cs = runSource fs inc cs := by
  induction cs with
  | nil => rfl
  | cons c cs ih =>
    cases c with
    | error e => rfl
    | ok c =>
      rw [Backend.runSource, run_deferred, ih]
      rfl

theorem includeWith_deferred (compile? : Option (String → String → Attempt Session Unit)) :
    (deferred fs).includeWith fs compile? = includeWith fs compile? := by
  funext h name
  simp only [Backend.includeWith, includeWith, deferred, bind_assoc, pure_bind]
  congr 1
  funext s
  by_cases hf : Path.resolve h.position.file name ∈ s.files
  · simp only [hf, if_true]
    rfl
  · simp only [hf, if_false]
    cases compile? <;> rfl

theorem compile_deferred (room : Nat) : (deferred fs).compile fs room = compile fs room := by
  induction room with
  | zero =>
    funext file text
    rw [Backend.compile, compile, includeWith_deferred, runSource_deferred]
    rfl
  | succ room ih =>
    funext file text
    rw [Backend.compile, compile, includeWith_deferred, runSource_deferred, ih]
    rfl

theorem addSource_deferred (name text : String) :
    (deferred fs).addSource fs name text = Session.addSource fs name text := by
  rw [Backend.addSource, Session.addSource]
  simp only [compile_deferred]
  rfl

theorem addAll_deferred (is : List Input) : (deferred fs).addAll fs is = addInputs fs is := by
  induction is with
  | nil => rfl
  | cons i is ih =>
    cases i with
    | source name text => rw [Backend.addAll, Backend.add, addSource_deferred, ih, addInputs]
    | file path =>
      rw [Backend.addAll, Backend.add, ih, addInputs, Session.addFile]
      cases fs.read path with
      | error f => rfl
      | ok bytes => exact congrArg (· >>= _) (addSource_deferred fs path (Text.decodeUtf8 bytes))

end Deferred

section Recording

variable {σ : Type}

/-- Runs a computation beside numbers that it does not touch. -/
def besideNumbers {α : Type} (act : Attempt σ α) : Attempt (σ × List Nat) α :=
  act.onPart Prod.fst fun s r => (s, r.2)

/-- The same assembler, which also keeps the numbers of rounds of the blocks it meets, latest
first. -/
def Backend.recording (b : Backend σ) : Backend (σ × List Nat) where
  label pos name := besideNumbers (b.label pos name)
  operation h o := besideNumbers (b.operation h o)
  count pos v := do
    let n ← besideNumbers (b.count pos v)
    modify fun r => (r.1, n :: r.2)
    pure n
  openFiles := besideNumbers b.openFiles
  enter file r := (b.enter file r.1, r.2)
  leave r := (b.leave r.1, r.2)

theorem Backend.run_inFile_recording (b : Backend σ) {file : String}
    {act : Attempt (σ × List Nat) Unit} {s s' : σ} {ns ns' : List Nat} {r : Except Failure Unit}
    (h : act.run (b.enter file s, ns) = (r, s', ns')) :
    (b.recording.inFile file act).run (s, ns) = (r, b.leave s', ns') := by
  rw [run_inFile]
  change ((act.run (b.enter file s, ns)).1, b.recording.leave (act.run (b.enter file s, ns)).2) = _
  rw [h]
  rfl

/-- Apart from what is kept beside the state, the first computation is the second. -/
def Records {τ α : Type} (x : Attempt (σ × τ) α) (y : Attempt σ α) : Prop :=
  ∀ s ns, ∃ ns', x.run (s, ns) = ((y.run s).1, (y.run s).2, ns')

theorem records_besideNumbers {α : Type} (act : Attempt σ α) : Records (besideNumbers act) act :=
  fun _ ns => ⟨ns, rfl⟩

theorem Records.bind {τ α β : Type} {x : Attempt (σ × τ) α} {y : Attempt σ α}
    {f : α → Attempt (σ × τ) β} {g : α → Attempt σ β} (hxy : Records x y)
    (hfg : ∀ a, Records (f a) (g a)) : Records (x >>= f) (y >>= g) := by
  intro s ns
  obtain ⟨ns', hx⟩ := hxy s ns
  rcases hy : y.run s with ⟨r | a, s'⟩
  · rw [hy] at hx
    exact ⟨ns', by rw [Attempt.run_bind_error hx, Attempt.run_bind_error hy]⟩
  · rw [hy] at hx
    obtain ⟨ns'', hf⟩ := hfg a s' ns'
    exact ⟨ns'', by rw [Attempt.run_bind_ok hx, Attempt.run_bind_ok hy, hf]⟩

/-- Recording changes nothing else. -/
theorem related_recording (b : Backend σ) : Backend.Related Records b.recording b where
  lift _ _ ns := ⟨ns, rfl⟩
  bind := Records.bind
  label pos name := records_besideNumbers _
  operation h o := records_besideNumbers _
  count pos v := by
    intro s ns
    rcases hc : (b.count pos v).run s with ⟨r | n, s'⟩
    · have hrec : (besideNumbers (b.count pos v)).run (s, ns) = (.error r, s', ns) := by
        rw [besideNumbers, Attempt.onPart, Attempt.run_of, hc]
      exact ⟨ns, Attempt.run_bind_error hrec _⟩
    · have hrec : (besideNumbers (b.count pos v)).run (s, ns) = (.ok n, s', ns) := by
        rw [besideNumbers, Attempt.onPart, Attempt.run_of, hc]
      exact ⟨n :: ns, Attempt.run_bind_ok hrec _⟩
  openFiles := records_besideNumbers _
  inFile file {x y} h := by
    intro s ns
    obtain ⟨ns', hx⟩ := h (b.enter file s) ns
    exact ⟨ns', b.run_inFile_recording hx⟩

end Recording

end Eleven.Assembly

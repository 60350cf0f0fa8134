import Eleven.Proofs.Assembly.Calls
import Eleven.Proofs.Assembly.Located
import Eleven.Proofs.Files.Path

/-! Every failure points at a line of a file that has been read. What has been read is kept beside
the session, by an assembler that does nothing else besides. -/
namespace Eleven.Assembly

open Eleven.Failure (Placed Placeable placeable_fault)
open Eleven.Files (FileSystem)
open Eleven.Source (Header Operation Command Reader SourceFile PointsInto)

/-- A session and the files read in it, latest first. -/
abbrev Trace := Session × List SourceFile

/-- Runs a computation over the session. -/
def aside {α : Type} (act : Attempt Session α) : Attempt Trace α :=
  act.onPart Prod.fst fun s t => (s, t.2)

/-- The assembler of this library beside a list of files. -/
def traced (fs : FileSystem) : Backend Trace where
  label pos name := aside ((deferred fs).label pos name)
  operation h o := aside ((deferred fs).operation h o)
  count pos v := aside ((deferred fs).count pos v)
  openFiles := aside (deferred fs).openFiles
  enter file t := (enterFile file t.1, t.2)
  leave t := (leaveFile t.1, t.2)

/-- Keeps a file, and assembles its commands. -/
def assembleFile (fs : FileSystem) (f : SourceFile)
    (includeFile : Header → String → Attempt Trace Unit) : Attempt Trace Unit := do
  modify fun t => (t.1, f :: t.2)
  (traced fs).inFile (Path.clean f.name)
    ((traced fs).runSource includeFile (Reader.commands f.name f.text))

/-- Assembles a text as the file of a name and keeps both, and those of the files it includes. -/
def compileTraced (fs : FileSystem) : Nat → String → String → Attempt Trace Unit
  | 0, file, text => assembleFile fs ⟨file, text⟩ ((traced fs).includeWith fs none)
  | room + 1, file, text =>
    assembleFile fs ⟨file, text⟩ ((traced fs).includeWith fs (some (compileTraced fs room)))

def addSourceTraced (fs : FileSystem) (name text : String) : Attempt Trace Unit := do
  let files ← (traced fs).openFiles
  compileTraced fs (maxIncludeDepth - 1 - files.length) name text

/-- The session after a call, and the files read until then. -/
def traceCall (fs : FileSystem) (t : Trace) : Call → Trace
  | .addSource name text => ((addSourceTraced fs name text).run t).2
  | c => ((c.perform fs t.1).2, t.2)

/-- The session and the files read after calls on a new one. -/
def Trace.after (fs : FileSystem) (calls : List Call) : Trace :=
  calls.foldl (traceCall fs) (.new, [])

/-- The sources and included files that are read by calls. -/
def filesRead (fs : FileSystem) (calls : List Call) : List SourceFile := (Trace.after fs calls).2

section Projection

variable (fs : FileSystem)

theorem records_aside {α : Type} (act : Attempt Session α) : Records (aside act) act :=
  fun _ files => ⟨files, rfl⟩

/-- Keeping files changes nothing else. -/
theorem related_traced : Backend.Related Records (traced fs) (deferred fs) where
  lift _ _ files := ⟨files, rfl⟩
  bind := Records.bind
  label pos name := records_aside _
  operation h o := records_aside _
  count pos v := records_aside _
  openFiles := records_aside _
  inFile file {x y} h := by
    intro s files
    obtain ⟨files', hx⟩ := h (enterFile file s) files
    refine ⟨files', ?_⟩
    rw [Backend.run_inFile, Backend.run_inFile]
    change ((x.run (enterFile file s, files)).1, leaveFile (x.run (enterFile file s, files)).2.1,
      (x.run (enterFile file s, files)).2.2) = _
    rw [hx]
    rfl

theorem run_assembleFile (f : SourceFile) (inc : Header → String → Attempt Trace Unit) (t : Trace) :
    (assembleFile fs f inc).run t = ((traced fs).inFile (Path.clean f.name)
      ((traced fs).runSource inc (Reader.commands f.name f.text))).run (t.1, f :: t.2) := by
  rw [assembleFile, Attempt.run_bind_ok (Attempt.run_modify _ t)]

theorem records_assembleFile {inc : Header → String → Attempt Trace Unit}
    {inc' : Header → String → Attempt Session Unit}
    (hinc : ∀ h name, Records (inc h name) (inc' h name)) (f : SourceFile) :
    Records (assembleFile fs f inc) ((deferred fs).inFile (Path.clean f.name)
      ((deferred fs).runSource inc' (Reader.commands f.name f.text))) := by
  intro s files
  rw [run_assembleFile]
  have hsource := (related_traced fs).runSource hinc (Reader.commands f.name f.text)
  exact (related_traced fs).inFile (Path.clean f.name) hsource s (f :: files)

theorem records_compileTraced (room : Nat) (file text : String) :
    Records (compileTraced fs room file text) ((deferred fs).compile fs room file text) := by
  induction room generalizing file text with
  | zero => exact records_assembleFile fs ((related_traced fs).includeWith fs .none) ⟨file, text⟩
  | succ room ih =>
    exact records_assembleFile fs ((related_traced fs).includeWith fs (.some ih)) ⟨file, text⟩

theorem records_addSourceTraced (name text : String) :
    Records (addSourceTraced fs name text) (Session.addSource fs name text) := by
  rw [← addSource_deferred]
  exact (related_traced fs).openFiles.bind fun files => records_compileTraced fs _ name text

theorem fst_traceCall (t : Trace) (c : Call) : (traceCall fs t c).1 = (c.perform fs t.1).2 := by
  cases c with
  | addSource name text =>
    obtain ⟨files, hrun⟩ := records_addSourceTraced fs name text t.1 t.2
    change ((addSourceTraced fs name text).run (t.1, t.2)).2.1 = _
    rw [hrun]
    rfl
  | _ => rfl

theorem fst_after (calls : List Call) : (Trace.after fs calls).1 = Session.after fs calls := by
  unfold Trace.after Session.after
  have hrun : ∀ (t : Trace), (calls.foldl (traceCall fs) t).1 =
      calls.foldl (fun s c => (c.perform fs s).2) t.1 := by
    induction calls with
    | nil => exact fun t => rfl
    | cons c calls ih =>
      intro t
      rw [List.foldl_cons, List.foldl_cons, ih, fst_traceCall]
  exact hrun (.new, [])

end Projection

/-- The file is one of the sources given, or one that the file system has. -/
def ComesFrom (fs : FileSystem) (sources : List SourceFile) (f : SourceFile) : Prop :=
  f ∈ sources ∨ ∃ bytes, fs.read f.name = .ok bytes ∧ f.text = Text.decodeUtf8 bytes

/-- All that the session holds points into the files read, and these come from the sources or from
the file system. -/
structure Trace.Located (fs : FileSystem) (sources : List SourceFile) (t : Trace) : Prop where
  held : t.1.Located (PointsInto t.2)
  origin : ∀ f ∈ t.2, ComesFrom fs sources f

/-- Where the files `known` have been read before, a computation keeps all that the session holds
inside the files read, and so is the place of its failure. -/
def Sound {α : Type} (fs : FileSystem) (sources known : List SourceFile) (x : Attempt Trace α) :
    Prop :=
  ∀ t : Trace, known ⊆ t.2 → t.Located fs sources →
    known ⊆ (x.run t).2.2 ∧ (x.run t).2.Located fs sources ∧
      Ensures (fun _ => True) (Placed (PointsInto (x.run t).2.2)) (x.run t).1

section Sound

variable {α β : Type} {fs : FileSystem} {sources known : List SourceFile}

theorem sound_pure (a : α) : Sound fs sources known (pure a : Attempt Trace α) := fun _ hk ht =>
  ⟨hk, ht, trivial⟩

theorem sound_throw {e : Failure} (he : e.Placed (PointsInto known)) :
    Sound fs sources known (throw e : Attempt Trace α) := fun _ hk ht =>
  ⟨hk, ht, he.mono fun _ => PointsInto.mono hk⟩

theorem Sound.bind {x : Attempt Trace α} {f : α → Attempt Trace β} (hx : Sound fs sources known x)
    (hf : ∀ a, Sound fs sources known (f a)) : Sound fs sources known (x >>= f) := by
  intro t hk ht
  obtain ⟨hk', ht', he⟩ := hx t hk ht
  rcases hrun : x.run t with ⟨e | a, t'⟩
  · rw [hrun] at hk' ht' he
    rw [Attempt.run_bind_error hrun]
    exact ⟨hk', ht', he⟩
  · rw [hrun] at hk' ht'
    rw [Attempt.run_bind_ok hrun]
    exact hf a t' hk' ht'

/-- What is done to the session alone, at places inside the files read. -/
theorem sound_aside {x : Attempt Session α}
    (h : ∀ read, known ⊆ read →
      Raises (Session.Located (PointsInto read)) (Placed (PointsInto read)) x) :
    Sound fs sources known (aside x) := by
  intro t hk ht
  obtain ⟨hs, he⟩ := h t.2 hk t.1 ht.held
  exact ⟨hk, ⟨hs, ht.origin⟩, he⟩

theorem Sound.inFile {x : Attempt Trace Unit} (hx : Sound fs sources known x) (file : String) :
    Sound fs sources known ((traced fs).inFile file x) := by
  intro t hk ht
  have hs := ht.held
  have henter : Trace.Located fs sources (enterFile file t.1, t.2) :=
    ⟨⟨hs.symbols, hs.pending, hs.pc, hs.link⟩, ht.origin⟩
  obtain ⟨hk', ht', he⟩ := hx (enterFile file t.1, t.2) hk henter
  have hs' := ht'.held
  exact ⟨hk', ⟨⟨hs'.symbols, hs'.pending, hs'.pc, hs'.link⟩, ht'.origin⟩, he⟩

end Sound

section Commands

variable {fs : FileSystem} {sources known : List SourceFile}

theorem sound_labels {pos : Position} (hpos : PointsInto known pos) (labels : List String) :
    Sound fs sources known ((traced fs).labels pos labels) := by
  induction labels with
  | nil => exact sound_pure ()
  | cons label labels ih =>
    have hlabel : Sound fs sources known ((traced fs).label pos label) := by
      apply sound_aside
      intro read hk
      exact raises_update fun s hs => ensures_define hs (hpos.mono hk) hs.pc label
    exact hlabel.bind fun _ => ih

theorem sound_operation {h : Header} (hpos : PointsInto known h.position) {o : Operation}
    (ho : o.StepsRaise (Placeable (PointsInto known))) :
    Sound fs sources known ((traced fs).operation h o) := by
  apply sound_aside
  intro read hk
  have hvalues : o.StepsRaise (Placeable (PointsInto read)) := fun v hv =>
    stepsRaise_mono (fun _ => PointsInto.mono hk) (ho v hv)
  exact raises_update fun s hs => ensures_apply hs fs (hpos.mono hk) hvalues

theorem sound_count {pos : Position} (hpos : PointsInto known pos) {count : Lazy}
    (hcount : count.StepsRaise (Placeable (PointsInto known))) :
    Sound fs sources known ((traced fs).count pos count) := by
  apply sound_aside
  intro read hk
  exact raises_repeatCount (hpos.mono hk) (stepsRaise_mono (fun _ => PointsInto.mono hk) hcount)

theorem sound_replay {body : Attempt Trace Flow} (hbody : Sound fs sources known body) (n : Nat) :
    Sound fs sources known (Backend.replay body n) := by
  induction n with
  | zero => exact sound_pure ()
  | succ n ih => exact hbody.bind fun _ => ih

section Includer

variable {inc : Header → String → Attempt Trace Unit}

theorem sound_runBody {cs : List Command}
    (hcs : ∀ c ∈ cs, Sound fs sources known ((traced fs).run inc c)) :
    Sound fs sources known ((traced fs).runBody inc cs) := by
  induction cs with
  | nil =>
    unfold Backend.runBody
    exact sound_pure _
  | cons c cs ih =>
    rw [List.forall_mem_cons] at hcs
    unfold Backend.runBody
    apply hcs.1.bind
    intro flow
    cases flow with
    | stop => exact sound_pure _
    | next => exact ih hcs.2

variable (hinc : ∀ h name, PointsInto known h.position → Sound fs sources known (inc h name))
include hinc

/-- A command that points into the files read fails there. The induction is on the command and those
inside it. -/
theorem sound_run {c : Command} (hc : c.Located (PointsInto known)) :
    Sound fs sources known ((traced fs).run inc c) := by
  induction hc with
  | @single h o hpos hvalues =>
    unfold Backend.run
    apply (sound_labels hpos h.labels).bind
    intro _
    split
    · exact sound_pure _
    · exact (hinc h _ hpos).bind fun _ => sound_pure _
    · exact (sound_operation hpos hvalues).bind fun _ => sound_pure _
  | @repetition h count body hpos hcount hbody ih =>
    unfold Backend.run
    apply (sound_labels hpos h.labels).bind
    intro _
    apply (sound_count hpos hcount).bind
    intro n
    exact (sound_replay (sound_runBody ih) n).bind fun _ => sound_pure _

theorem sound_runSource {cs : List (Except Failure Command)}
    (hcs : ∀ c ∈ cs, Source.Located (PointsInto known) c) :
    Sound fs sources known ((traced fs).runSource inc cs) := by
  induction cs with
  | nil => exact sound_pure ()
  | cons c cs ih =>
    rw [List.forall_mem_cons] at hcs
    cases c with
    | error e => exact sound_throw hcs.1
    | ok c =>
      apply (sound_run hinc hcs.1).bind
      intro flow
      cases flow with
      | stop => exact sound_pure ()
      | next => exact ih hcs.2

end Includer

theorem sound_openFiles : Sound fs sources known (traced fs).openFiles := by
  apply sound_aside
  intro read hk s hs
  exact ⟨hs, trivial⟩

theorem sound_includeWith {compile? : Option (String → String → Attempt Trace Unit)}
    (hcompile : ∀ compile ∈ compile?, ∀ file text, file ≠ "" →
      ComesFrom fs sources ⟨file, text⟩ → Sound fs sources known (compile file text))
    (h : Header) (name : String) (hpos : PointsInto known h.position) :
    Sound fs sources known ((traced fs).includeWith fs compile? h name) := by
  unfold Backend.includeWith
  apply sound_openFiles.bind
  intro files
  split
  · exact sound_throw (Problem.placed_failure hpos _)
  · unfold Backend.included
    split
    · exact sound_throw (Problem.placed_failure hpos _)
    · split
      · exact sound_throw (Problem.placed_failureOf hpos _ _)
      · next bytes hread =>
        exact hcompile _ rfl _ _ (Path.resolve_ne_empty _ _) (.inr ⟨bytes, hread, rfl⟩)

/-- The commands of a file, which counts as read from the first of them on. -/
theorem sound_assembleFile {f : SourceFile} (hfile : f.name ≠ "") (hcomes : ComesFrom fs sources f)
    {inc : Header → String → Attempt Trace Unit}
    (hinc : ∀ h name, PointsInto (f :: known) h.position →
      Sound fs sources (f :: known) (inc h name)) :
    Sound fs sources known (assembleFile fs f inc) := by
  have hcommands : ∀ c ∈ Reader.commands f.name f.text,
      Source.Located (PointsInto (f :: known)) c := by
    apply Reader.located_commands (Source.places_pointsInto _)
    intro i line hline
    exact Source.pointsInto_linePosition (by simp) hfile hline
  have hrun := (sound_runSource hinc hcommands).inFile (Path.clean f.name)
  intro t hk ht
  have hmore : t.2 ⊆ f :: t.2 := List.subset_cons_self _ _
  have hstart : Trace.Located fs sources (t.1, f :: t.2) :=
    ⟨ht.held.mono fun _ => PointsInto.mono hmore, List.forall_mem_cons.mpr ⟨hcomes, ht.origin⟩⟩
  obtain ⟨hk', ht', he⟩ := hrun (t.1, f :: t.2) (List.cons_subset_cons _ hk) hstart
  rw [run_assembleFile]
  exact ⟨fun g hg => hk' (List.mem_cons_of_mem _ hg), ht', he⟩

/-- A source fails at a line of its own, or of a file that it includes. -/
theorem sound_compileTraced (room : Nat) (file text : String) (hfile : file ≠ "")
    (hcomes : ComesFrom fs sources ⟨file, text⟩) :
    Sound fs sources known (compileTraced fs room file text) := by
  induction room generalizing known file text with
  | zero =>
    apply sound_assembleFile hfile hcomes
    apply sound_includeWith
    simp
  | succ room ih =>
    apply sound_assembleFile hfile hcomes
    apply sound_includeWith
    intro compile hcompile
    cases hcompile
    exact ih

theorem sound_addSourceTraced {name text : String} (hname : name ≠ "")
    (hcomes : ⟨name, text⟩ ∈ sources) : Sound fs sources known (addSourceTraced fs name text) :=
  sound_openFiles.bind fun _ => sound_compileTraced _ name text hname (.inl hcomes)

end Commands

/-- The source that a call adds. -/
def Call.source? : Call → Option SourceFile
  | .addSource name text => some ⟨name, text⟩
  | _ => none

/-- Sources come in by names that are not empty, and nothing else defines symbols. -/
def Call.isSourced : Call → Bool
  | .addSource name _ => name != ""
  | .addFile _ => false
  | .define _ _ _ => false
  | _ => true

/-- What is asked of a session leaves all that it holds inside the files read. -/
theorem located_traceCall {fs : FileSystem} {sources : List SourceFile} {t : Trace}
    (ht : t.Located fs sources) {c : Call} (hc : c.isSourced = true)
    (hsource : ∀ f ∈ c.source?, f ∈ sources) : (traceCall fs t c).Located fs sources := by
  have hs := ht.held
  cases c with
  | setLink address => exact ⟨⟨hs.symbols, hs.pending, trivial, trivial⟩, ht.origin⟩
  | setProject project => exact ⟨⟨hs.symbols, hs.pending, hs.pc, hs.link⟩, ht.origin⟩
  | addFile path => cases hc
  | define name v pos => cases hc
  | addSource name text =>
    have hname : name ≠ "" := by simpa [Call.isSourced] using hc
    have hsound : Sound fs sources [] (addSourceTraced fs name text) :=
      sound_addSourceTraced hname (hsource _ rfl)
    exact (hsound t (List.nil_subset _) ht).2.1
  | link => exact ⟨(located_linkImage (Source.places_pointsInto t.2) hs).1, ht.origin⟩
  | lookup name => exact ⟨(raises_onSymbols (raises_lookup name) t.1 hs).1, ht.origin⟩
  | resolveAll =>
    have hall := raises_resolveAll (Source.places_pointsInto t.2)
    exact ⟨(raises_onSymbols hall t.1 hs).1, ht.origin⟩

theorem located_after {fs : FileSystem} {sources : List SourceFile} {calls : List Call}
    (hcalls : ∀ c ∈ calls, c.isSourced = true)
    (hsources : ∀ c ∈ calls, ∀ f ∈ c.source?, f ∈ sources) :
    (Trace.after fs calls).Located fs sources := by
  have hrun : ∀ t : Trace, t.Located fs sources →
      (calls.foldl (traceCall fs) t).Located fs sources := by
    induction calls with
    | nil => exact fun t ht => ht
    | cons c calls ih =>
      rw [List.forall_mem_cons] at hcalls hsources
      intro t ht
      exact ih hcalls.2 hsources.2 _ (located_traceCall ht hcalls.1 hsources.1)
  exact hrun _ ⟨located_new, by simp⟩

/-- In a session whose sources have names, every failure points at a line of a file that has been
read, and quotes it: a failure to add a source, and one to link, unless it is the link address
itself that fails or the assembler breaks off. The files read are sources added, or come from the
file system. -/
theorem failure_points_into_filesRead (fs : FileSystem) (calls : List Call)
    (hcalls : ∀ c ∈ calls, c.isSourced = true) :
    (∀ name text e, name ≠ "" →
      (Session.addSource fs name text).outcome (.after fs calls) = .error e →
        e.Placed (PointsInto (filesRead fs (calls ++ [.addSource name text])))) ∧
      (∀ e, Session.linkImage.outcome (.after fs calls) = .error e →
        ¬ LinkAddressFails (.after fs calls) e → ¬ BreaksOff e →
          e.Placed (PointsInto (filesRead fs calls))) ∧
      ∀ f ∈ filesRead fs calls, ComesFrom fs (calls.filterMap Call.source?) f := by
  have hlocated : ∀ {sources : List SourceFile}, calls.filterMap Call.source? ⊆ sources →
      (Trace.after fs calls).Located fs sources := by
    intro sources hsub
    apply located_after hcalls
    intro c hc f hf
    exact hsub (List.mem_filterMap.mpr ⟨c, hc, hf⟩)
  refine ⟨?_, ?_, (hlocated (List.Subset.refl _)).origin⟩
  · intro name text e hname he
    have hsound : Sound fs (⟨name, text⟩ :: calls.filterMap Call.source?) []
        (addSourceTraced fs name text) := sound_addSourceTraced hname (by simp)
    have hplaced := (hsound (Trace.after fs calls) (List.nil_subset _)
      (hlocated (List.subset_cons_self _ _))).2.2
    have hread : filesRead fs (calls ++ [.addSource name text]) =
        ((addSourceTraced fs name text).run (Trace.after fs calls)).2.2 := by
      rw [filesRead, Trace.after, List.foldl_append]
      rfl
    obtain ⟨_, hrun⟩ := records_addSourceTraced fs name text (Trace.after fs calls).1
      (Trace.after fs calls).2
    rw [← fst_after] at he
    rw [hread]
    exact hplaced.of_eq_error ((congrArg Prod.fst hrun).trans he)
  · intro e he haddress hbreaks
    rw [← fst_after] at he haddress
    have hheld := (hlocated (List.Subset.refl _)).held
    have hlink := (located_linkImage (Source.places_pointsInto _) hheld).2
    rcases hlink.of_eq_error he with hplaced | hfails | hoff
    · exact hplaced
    · exact absurd hfails haddress
    · exact absurd hoff hbreaks

/-- A file whose second line defines `x`. -/
def constants : FileSystem :=
  (⟨[("lib.s", "; constants\nx = 2 \n".toUTF8.toList)]⟩ : Files.Collection).fileSystem

/-- Where a failure is reported, if there is one. -/
def reportedAt {α : Type} : Except Failure α → Option Position
  | .ok _ => none
  | .error e => e.diagnostic?.map (·.position)

theorem eq_error_of_reportedAt {α : Type} {r : Except Failure α} {pos : Position}
    (h : reportedAt r = some pos) : ∃ e, r = .error e ∧ ¬ BreaksOff e := by
  cases r with
  | ok a => cases h
  | error e =>
    refine ⟨e, rfl, ?_⟩
    rintro ⟨a, n, rfl⟩
    cases h

/-- After `x = y`, the definition of `x` in an included file fails there, and a link fails where `y`
is needed. -/
theorem failure_points_into_constants :
    (∃ e, (Session.addSource constants "main.s" "nop\n.include \"lib.s\"\n").outcome
        (.after constants [.addSource "first.s" "x = y\n"]) = .error e ∧
      reportedAt (.error e : Except Failure Unit) = some ⟨"lib.s", 2, 1, "x = 2"⟩ ∧
      e.Placed (PointsInto (filesRead constants [.addSource "first.s" "x = y\n",
        .addSource "main.s" "nop\n.include \"lib.s\"\n"]))) ∧
    ∃ e, Session.linkImage.outcome (.after constants [.addSource "first.s" "x = y\n"]) =
        .error e ∧
      reportedAt (.error e : Except Failure Unit) = some ⟨"first.s", 1, 1, "x = y"⟩ ∧
      e.Placed (PointsInto (filesRead constants [.addSource "first.s" "x = y\n"])) := by
  obtain ⟨hadd, hlink, -⟩ :=
    failure_points_into_filesRead constants [.addSource "first.s" "x = y\n"] (by decide)
  constructor
  · have hat : reportedAt
        ((Session.addSource constants "main.s" "nop\n.include \"lib.s\"\n").outcome
          (.after constants [.addSource "first.s" "x = y\n"])) = some ⟨"lib.s", 2, 1, "x = 2"⟩ := by
      decide +kernel
    obtain ⟨e, he, -⟩ := eq_error_of_reportedAt hat
    rw [he] at hat
    exact ⟨e, he, hat, hadd _ _ e (by decide) he⟩
  · have hat : reportedAt (Session.linkImage.outcome
        (.after constants [.addSource "first.s" "x = y\n"])) = some ⟨"first.s", 1, 1, "x = y"⟩ := by
      decide +kernel
    have hsymbols : (SymbolTable.resolveAll.outcome
        (Session.after constants [.addSource "first.s" "x = y\n"]).symbols).toBool = false := by
      decide +kernel
    obtain ⟨e, he, hbreaks⟩ := eq_error_of_reportedAt hat
    rw [he] at hat
    refine ⟨e, he, hat, hlink e he ?_ hbreaks⟩
    rintro ⟨t, t', memory, hall, -⟩
    rw [Attempt.outcome_eq_of_run hall] at hsymbols
    cases hsymbols

end Eleven.Assembly

import Eleven.Proofs.Assembly.OpenFiles
import Eleven.Proofs.Assembly.Reordering

/-! A command that fails leaves nothing half done. Of its own it leaves at most its leading labels,
up to the one that fails, and what the commands before it did stands. -/
namespace Eleven.Assembly

open Eleven.Files (FileSystem)
open Eleven.Source (Header Operation Command Reader)

/-- The session with `names` defined as labels of its location counter, and no other change. -/
def Session.withLabels (pos : Position) (names : List String) (s : Session) : Session :=
  s.setSymbols ⟨s.symbols.symbols ++ names.map fun name => ⟨name, s.pc, pos, .pending⟩⟩

/-- The names can be defined, one after the other. -/
def Session.Admits (s : Session) (names : List String) : Prop :=
  names.Nodup ∧ ∀ name ∈ names, s.symbols.has name = false

/-- Commands that are neither a block nor another file. -/
def isPlain : Command → Bool
  | .single _ (.includeFile _) => false
  | .single _ _ => true
  | .repetition _ _ _ => false

/-- How a plain command fails from a session, and which of its labels are defined by then. -/
inductive Breaks (fs : FileSystem) (s : Session) : Command → List String → Failure → Prop
  /-- A label is taken, by a symbol from before or by a label of the same command. -/
  | label {h : Header} {o : Operation} {names : List String} {name : String} {rest : List String}
      (hlabels : h.labels = names ++ name :: rest) (hnew : s.Admits names)
      (htaken : name ∈ names ∨ s.symbols.has name = true) :
      Breaks fs s (.single h o) names ((Problem.redefinition name).failure h.position)
  /-- The operation is refused behind all of the labels. -/
  | operation {h : Header} {o : Operation} {e : Failure} (hnew : s.Admits h.labels)
      (hrefused : apply fs h o (s.withLabels h.position h.labels) = .error e) :
      Breaks fs s (.single h o) h.labels e

/-- An entry of a source fails from `s` with a report and leaves a session behind. -/
inductive FailsAt (fs : FileSystem) (inc : Includer) (s : Session) :
    Except Failure Command → Failure → Session → Prop
  | unreadable (e : Failure) : FailsAt fs inc s (.error e) e s
  | plain {c : Command} {names : List String} {e : Failure} (hc : isPlain c = true)
      (hbreaks : Breaks fs s c names e) :
      FailsAt fs inc s (.ok c) e (s.withLabels c.header.position names)
  | composite {c : Command} {e : Failure} {s' : Session} (hc : isPlain c = false)
      (hrun : (run fs inc c).run s = (.error e, s')) : FailsAt fs inc s (.ok c) e s'

/-- How the commands of a source include a file, once it is added to a session. -/
def Session.includer (fs : FileSystem) (s : Session) : Includer :=
  includerWithin fs (maxIncludeDepth - 1 - s.files.length)

section Labels

variable {s s' : Session} {pos : Position} {name : String} {names : List String} {e : Failure}

theorem withLabels_nil (pos : Position) (s : Session) : s.withLabels pos [] = s := by
  rw [Session.withLabels, List.map_nil, List.append_nil]
  rfl

theorem withLabels_cons (pos : Position) (name : String) (names : List String) (s : Session) :
    s.withLabels pos (name :: names) = (s.withLabels pos [name]).withLabels pos names := by
  simp only [Session.withLabels, Session.setSymbols, List.map_cons, List.map_nil,
    List.append_assoc, List.cons_append, List.nil_append]

theorem has_withLabels_singleton (other : String) :
    (s.withLabels pos [name]).symbols.has other = (s.symbols.has other || name == other) := by
  by_cases h : name = other <;>
    simp [Session.withLabels, Session.setSymbols, SymbolTable.has, SymbolTable.find?, h]

theorem admits_cons (pos : Position) :
    s.Admits (name :: names) ↔
      s.symbols.has name = false ∧ (s.withLabels pos [name]).Admits names := by
  simp only [Session.Admits, List.nodup_cons, List.forall_mem_cons, has_withLabels_singleton,
    Bool.or_eq_false_iff, beq_eq_false_iff_ne]
  constructor
  · rintro ⟨⟨hmem, hnodup⟩, hname, hnames⟩
    exact ⟨hname, hnodup, fun n hn => ⟨hnames n hn, fun h => hmem (h ▸ hn)⟩⟩
  · rintro ⟨hname, hnodup, hnames⟩
    exact ⟨⟨fun hmem => (hnames name hmem).2 rfl, hnodup⟩, hname, fun n hn => (hnames n hn).1⟩

/-- Defining a label. -/
theorem define_label (name : String) (pos : Position) (s : Session) :
    s.define name s.pc pos =
      if s.symbols.has name then .error ((Problem.redefinition name).failure pos)
      else .ok (s.withLabels pos [name]) := by
  unfold Session.define SymbolTable.define
  split_ifs <;> rfl

theorem run_defineLabels_cons_taken (hname : s.symbols.has name = true) :
    (defineLabels pos (name :: names)).run s =
      (.error ((Problem.redefinition name).failure pos), s) := by
  have hlabel : (Attempt.update fun s : Session => s.define name s.pc pos).run s =
      (.error ((Problem.redefinition name).failure pos), s) := by
    rw [Attempt.update, Attempt.run_of, define_label, if_pos hname]
  exact Attempt.run_bind_error hlabel _

theorem run_defineLabels_cons_free (hname : s.symbols.has name = false) :
    (defineLabels pos (name :: names)).run s =
      (defineLabels pos names).run (s.withLabels pos [name]) := by
  have hlabel : (Attempt.update fun s : Session => s.define name s.pc pos).run s =
      (.ok (), s.withLabels pos [name]) := by
    rw [Attempt.run_update_eq_ok, define_label, if_neg (by simp [hname])]
  exact Attempt.run_bind_ok hlabel _

/-- Labels are defined exactly if all of them are new. -/
theorem run_defineLabels_eq_ok :
    (defineLabels pos names).run s = (.ok (), s') ↔
      s.Admits names ∧ s' = s.withLabels pos names := by
  induction names generalizing s with
  | nil =>
    rw [withLabels_nil]
    constructor
    · intro h
      cases h
      exact ⟨⟨.nil, by simp⟩, rfl⟩
    · rintro ⟨-, rfl⟩
      rfl
  | cons name names ih =>
    rw [admits_cons pos, withLabels_cons pos name names]
    cases hname : s.symbols.has name with
    | true => simp [run_defineLabels_cons_taken hname]
    | false => simp [run_defineLabels_cons_free hname, ih]

/-- Otherwise those before the first that is taken are defined. -/
theorem run_defineLabels_eq_error :
    (defineLabels pos names).run s = (.error e, s') ↔
      ∃ before name rest, names = before ++ name :: rest ∧ s.Admits before ∧
        (name ∈ before ∨ s.symbols.has name = true) ∧
        e = (Problem.redefinition name).failure pos ∧ s' = s.withLabels pos before := by
  induction names generalizing s with
  | nil =>
    change (Except.ok (), s) = (Except.error e, s') ↔ _
    simp
  | cons first names ih =>
    cases hfirst : s.symbols.has first with
    | true =>
      rw [run_defineLabels_cons_taken hfirst]
      constructor
      · intro h
        cases h
        exact ⟨[], first, names, rfl, ⟨.nil, by simp⟩, .inr hfirst, rfl, (withLabels_nil _ _).symm⟩
      · rintro ⟨before, name, rest, hnames, hnew, -, rfl, rfl⟩
        cases before with
        | nil =>
          cases hnames
          rw [withLabels_nil]
        | cons b before =>
          cases hnames
          rw [hnew.2 first (by simp)] at hfirst
          cases hfirst
    | false =>
      rw [run_defineLabels_cons_free hfirst, ih]
      constructor
      · rintro ⟨before, name, rest, rfl, hnew, htaken, rfl, rfl⟩
        refine ⟨first :: before, name, rest, rfl, (admits_cons pos).mpr ⟨hfirst, hnew⟩, ?_, rfl,
          (withLabels_cons ..).symm⟩
        rw [has_withLabels_singleton, Bool.or_eq_true, beq_iff_eq] at htaken
        rw [List.mem_cons]
        tauto
      · rintro ⟨before, name, rest, hnames, hnew, htaken, rfl, rfl⟩
        cases before with
        | nil =>
          cases hnames
          simp [hfirst] at htaken
        | cons b before =>
          cases hnames
          refine ⟨before, name, rest, rfl, ((admits_cons pos).mp hnew).2, ?_, rfl,
            withLabels_cons ..⟩
          rw [has_withLabels_singleton, Bool.or_eq_true, beq_iff_eq]
          rw [List.mem_cons] at htaken
          tauto

end Labels

section Commands

variable {fs : FileSystem} {inc : Includer} {s s' : Session} {c : Command} {e : Failure}

/-- A plain command defines its labels, does its operation and no more. -/
theorem run_eq_effect {h : Header} {o : Operation} (hc : isPlain (.single h o) = true) :
    ∃ flow, run fs inc (.single h o) = (do effect fs h o; pure flow) := by
  cases o with
  | includeFile name => cases hc
  | endOfSource =>
    refine ⟨.stop, ?_⟩
    rw [run, effect, bind_assoc]
    rfl
  | _ =>
    refine ⟨.next, ?_⟩
    simp only [run, effect, bind_assoc]

theorem run_single_eq_error {h : Header} {o : Operation} (hc : isPlain (.single h o) = true) :
    (run fs inc (.single h o)).run s = (.error e, s') ↔
      (defineLabels h.position h.labels).run s = (.error e, s') ∨
        (defineLabels h.position h.labels).run s = (.ok (), s') ∧ apply fs h o s' = .error e := by
  obtain ⟨flow, hrun⟩ := @run_eq_effect fs inc h o hc
  rw [hrun, effect, bind_assoc, Attempt.run_bind_eq_error]
  refine or_congr_right ⟨?_, ?_⟩
  · rintro ⟨⟨⟩, m, hlabels, hrest⟩
    obtain hrefused | ⟨_, _, -, hpure⟩ := Attempt.run_bind_eq_error.mp hrest
    · obtain ⟨hrefused, rfl⟩ := Attempt.run_update_eq_error.mp hrefused
      exact ⟨hlabels, hrefused⟩
    · cases hpure
  · rintro ⟨hlabels, hrefused⟩
    refine ⟨(), s', hlabels, Attempt.run_bind_error ?_ _⟩
    exact Attempt.run_update_eq_error.mpr ⟨hrefused, rfl⟩

/-- What a plain command leaves when it fails. -/
theorem run_plain_eq_error (hc : isPlain c = true) :
    (run fs inc c).run s = (.error e, s') ↔
      ∃ names, Breaks fs s c names e ∧ s' = s.withLabels c.header.position names := by
  cases c with
  | repetition h count body => cases hc
  | single h o =>
    rw [run_single_eq_error hc, run_defineLabels_eq_error, run_defineLabels_eq_ok]
    constructor
    · rintro (⟨before, name, rest, hlabels, hnew, htaken, rfl, rfl⟩ | ⟨⟨hnew, rfl⟩, hrefused⟩)
      · exact ⟨before, .label hlabels hnew htaken, rfl⟩
      · exact ⟨h.labels, .operation hnew hrefused, rfl⟩
    · rintro ⟨names, hbreaks, rfl⟩
      cases hbreaks with
      | label hlabels hnew htaken => exact .inl ⟨_, _, _, hlabels, hnew, htaken, rfl, rfl⟩
      | operation hnew hrefused => exact .inr ⟨⟨hnew, rfl⟩, hrefused⟩

theorem failsAt_ok_iff :
    FailsAt fs inc s (.ok c) e s' ↔ (run fs inc c).run s = (.error e, s') := by
  cases hc : isPlain c with
  | true =>
    rw [run_plain_eq_error hc]
    constructor
    · intro h
      cases h with
      | plain _ hbreaks => exact ⟨_, hbreaks, rfl⟩
      | composite hc' _ => simp [hc] at hc'
    · rintro ⟨names, hbreaks, rfl⟩
      exact .plain hc hbreaks
  | false =>
    constructor
    · intro h
      cases h with
      | plain hc' _ => simp [hc] at hc'
      | composite _ hrun => exact hrun
    · exact .composite hc

/-- A source fails at one of its entries, after those before it have succeeded. The induction is on
the entries. -/
theorem runSource_eq_error {cs : List (Except Failure Command)} :
    (runSource fs inc cs).run s = (.error e, s') ↔
      ∃ before entry rest s₁, cs = before.map .ok ++ entry :: rest ∧
        (runBody fs inc before).run s = (.ok .next, s₁) ∧ FailsAt fs inc s₁ entry e s' := by
  induction cs generalizing s with
  | nil =>
    change (Except.ok (), s) = (Except.error e, s') ↔ _
    simp
  | cons entry cs ih =>
    cases entry with
    | error f =>
      change (Except.error f, s) = (Except.error e, s') ↔ _
      constructor
      · intro h
        cases h
        exact ⟨[], .error e, cs, s', rfl, rfl, .unreadable e⟩
      · rintro ⟨before, entry, rest, s₁, hcs, hbefore, hfails⟩
        cases before with
        | nil =>
          cases hcs
          cases hbefore
          cases hfails
          rfl
        | cons c before => cases hcs
    | ok c =>
      rw [runSource, Attempt.run_bind_eq_error]
      constructor
      · rintro (hc | ⟨flow, m, hc, hrest⟩)
        · exact ⟨[], .ok c, cs, s, rfl, rfl, failsAt_ok_iff.mpr hc⟩
        · cases flow with
          | stop => cases hrest
          | next =>
            obtain ⟨before, entry, rest, s₁, rfl, hbefore, hfails⟩ := ih.mp hrest
            refine ⟨c :: before, entry, rest, s₁, rfl, ?_, hfails⟩
            rwa [runBody, Attempt.run_bind_ok hc]
      · rintro ⟨before, entry, rest, s₁, hcs, hbefore, hfails⟩
        cases before with
        | nil =>
          cases hcs
          cases hbefore
          exact .inl (failsAt_ok_iff.mp hfails)
        | cons c' before =>
          cases hcs
          obtain ⟨flow, m, hc, hrest⟩ := Attempt.run_bind_eq_ok.mp hbefore
          cases flow with
          | stop => cases hrest
          | next => exact .inr ⟨.next, m, hc, ih.mpr ⟨before, entry, rest, s₁, rfl, hrest, hfails⟩⟩

/-- Adding a source runs what is read from it, and closes its file in any case. -/
theorem run_addSource (fs : FileSystem) (name text : String) (s : Session) :
    (Session.addSource fs name text).run s =
      Prod.map id leaveFile ((runSource fs (s.includer fs) (Reader.commands name text)).run
        (enterFile (Path.clean name) s)) := by
  change (compile fs (maxIncludeDepth - 1 - s.files.length) name text).run s = _
  rw [Session.includer]
  cases maxIncludeDepth - 1 - s.files.length <;> rfl

theorem files_of_addSource {name text : String} {r : Except Failure Unit}
    (h : (Session.addSource fs name text).run s = (r, s')) : s'.files = s.files :=
  (keepsFiles_compile fs (maxIncludeDepth - 1 - s.files.length) name text).of_run h

end Commands

end Eleven.Assembly

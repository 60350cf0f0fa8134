import Eleven.Proofs.Assembly.Agreement
import Eleven.Proofs.Assembly.Linking

/-! Any history of calls on a session. Linking, looking a symbol up and resolving all symbols leave
nothing behind that a later call could tell, whether they succeed or fail. -/
namespace Eleven.Assembly

open Eleven.Files (FileSystem)

/-- What can be asked of a session. -/
inductive Call where
  | setLink (address : Int64)
  | setProject (project : Bool)
  | addFile (path : String)
  | addSource (name text : String)
  | define (name : String) (v : Lazy) (pos : Position)
  | link
  | lookup (name : String)
  | resolveAll

/-- What a call answers. -/
inductive Answer where
  | done (r : Except Failure Unit)
  | image (r : Except Failure Image)
  | datum (r : Except Failure Datum)

namespace Call

/-- The answer of a call and the session after it. -/
def perform (fs : FileSystem) (s : Session) : Call → Answer × Session
  | .setLink address => (.done (.ok ()), s.setLink address)
  | .setProject project => (.done (.ok ()), s.setProject project)
  | .addFile path => Prod.map .done id ((Session.addFile fs path).run s)
  | .addSource name text => Prod.map .done id ((Session.addSource fs name text).run s)
  | .define name v pos => Prod.map .done id ((Attempt.update (Session.define name v pos)).run s)
  | .link => Prod.map .image id (Session.linkImage.run s)
  | .lookup name => Prod.map .datum id ((Session.onSymbols (SymbolTable.lookup name)).run s)
  | .resolveAll => Prod.map .done id ((Session.onSymbols SymbolTable.resolveAll).run s)

end Call

/-- The answers of calls, one after the other. -/
def answers (fs : FileSystem) : Session → List Call → List Answer
  | _, [] => []
  | s, c :: cs => (c.perform fs s).1 :: answers fs (c.perform fs s).2 cs

/-- A new session after calls. -/
def Session.after (fs : FileSystem) (calls : List Call) : Session :=
  calls.foldl (fun s c => (c.perform fs s).2) .new

/-- The calls that only ask. -/
inductive Probe where
  | link
  | lookup (name : String)
  | resolveAll

def Probe.call : Probe → Call
  | .link => .link
  | .lookup name => .lookup name
  | .resolveAll => .resolveAll

/-- A call of a history, or a probe put in between. -/
inductive Step where
  | call (c : Call)
  | probe (p : Probe)

/-- The history without the probes put in. -/
def Step.call? : Step → Option Call
  | .call c => some c
  | .probe _ => none

/-- The answers of the calls of a history while the probes are made too. -/
def answersAmid (fs : FileSystem) : Session → List Step → List Answer
  | _, [] => []
  | s, .call c :: steps => (c.perform fs s).1 :: answersAmid fs (c.perform fs s).2 steps
  | s, .probe p :: steps => answersAmid fs (p.call.perform fs s).2 steps

/-- Sessions that differ at most in the results their tables keep. -/
abbrev Session.Alike : Session → Session → Prop := Session.Over SymbolTable.Alike

theorem Session.alike_of_quiet {s : Session} (hq : s.symbols.Quiet) : s.Alike s := ⟨hq.alike, rfl⟩

/-- A link that fails on a symbol stops there. -/
theorem run_linkImage_error {s : Session} {e : Failure} {t : SymbolTable}
    (hall : SymbolTable.resolveAll.run s.symbols = (.error e, t)) :
    Session.linkImage.run s = (.error e, s.setSymbols t) := by
  rw [Session.linkImage, Attempt.run_bind_ok (Attempt.run_get s)]
  exact Attempt.run_bind_error (run_onSymbols hall) _

theorem agree_linkImage : Agree Session.Alike Session.linkImage Session.linkImage := by
  intro s s' h
  obtain ⟨r, t, t', hall, hall', ht⟩ := SymbolTable.agree_resolveAll s.symbols s'.symbols h.symbols
  cases r with
  | error e =>
    exact ⟨.error e, _, _, run_linkImage_error hall, run_linkImage_error hall', h.setSymbols ht⟩
  | ok u =>
    have hsettled := (SymbolTable.settled_of_resolveAll h.symbols.quiet hall).2.2
    have hsettled' := (SymbolTable.settled_of_resolveAll h.symbols.quiet' hall').2.2
    have hlink := run_linkImage hsettled' hall'
    have hwrites : s'.writes = s.writes := h.same Session.writes fun _ => rfl
    have haddress : s'.link = s.link := h.same Session.link fun _ => rfl
    have hbuild : s'.build = s.build := h.same Session.build fun _ => rfl
    rw [ht.akin.results_eq hsettled hsettled', ht.values_eq hsettled hsettled', hwrites, haddress,
      hbuild] at hlink
    exact ⟨_, _, _, run_linkImage hsettled hall, hlink, h.setSymbols ht⟩

section Histories

variable (fs : FileSystem) {s s' : Session}

/-- One call of a history: related sessions give the same answer and stay related. -/
theorem perform_alike (h : s.Alike s') (c : Call) :
    (c.perform fs s').1 = (c.perform fs s).1 ∧ (c.perform fs s).2.Alike (c.perform fs s').2 := by
  have hmap : ∀ {α : Type} {x : Attempt Session α}, Agree Session.Alike x x → ∀ f : _ → Answer,
      (Prod.map f id (x.run s')).1 = (Prod.map f id (x.run s)).1 ∧
        (Prod.map f id (x.run s)).2.Alike (Prod.map f id (x.run s')).2 := by
    intro α x hx f
    obtain ⟨r, u, u', hrun, hrun', hu⟩ := hx s s' h
    rw [hrun, hrun']
    exact ⟨rfl, hu⟩
  cases c with
  | setLink address => exact ⟨rfl, h.symbols, by rw [h.others]; rfl⟩
  | setProject project => exact ⟨rfl, h.symbols, by rw [h.others]; rfl⟩
  | addFile path => exact hmap (agree_addFile SymbolTable.stable_alike fs path) _
  | addSource name text => exact hmap (agree_addSource SymbolTable.stable_alike fs name text) _
  | define name v pos =>
    exact hmap (Agree.update fun _ _ hs => hs.define SymbolTable.stable_alike name v pos) _
  | link => exact hmap agree_linkImage _
  | lookup name =>
    exact hmap (agree_onSymbols (SymbolTable.agree_lookup SymbolTable.stable_alike name)) _
  | resolveAll => exact hmap (agree_onSymbols SymbolTable.agree_resolveAll) _

/-- A link changes the results that the table keeps, and nothing else. -/
theorem linkImage_keeps (hq : s.symbols.Quiet) :
    ∃ t, (Session.linkImage.run s).2 = s.setSymbols t ∧ t.Quiet ∧ s.symbols.Grows t := by
  obtain ⟨r, t, hall, hqt, hg, -⟩ := SymbolTable.run_resolveAll hq
  cases r with
  | error e => exact ⟨t, by rw [run_linkImage_error hall], hqt, hg⟩
  | ok u =>
    have hsettled := (SymbolTable.settled_of_resolveAll hq hall).2.2
    exact ⟨t, by rw [run_linkImage hsettled hall], hqt, hg⟩

/-- A probe keeps the session as it was, apart from results. -/
theorem probe_alike (hq : s.symbols.Quiet) (p : Probe) : (p.call.perform fs s).2.Alike s := by
  have hkeep : ∀ t, t.Quiet → s.symbols.Grows t → (s.setSymbols t).Alike s := fun t hqt hg =>
    ⟨⟨hqt, hq, hg.definitions.symm⟩, rfl⟩
  cases p with
  | link =>
    obtain ⟨t, ht, hqt, hg⟩ := linkImage_keeps hq
    change (Session.linkImage.run s).2.Alike s
    rw [ht]
    exact hkeep t hqt hg
  | lookup name =>
    obtain ⟨r, t, hrun, hqt, hg, -⟩ := (SymbolTable.reads_lookup name).2 s.symbols hq
    change ((Session.onSymbols (SymbolTable.lookup name)).run s).2.Alike s
    rw [run_onSymbols hrun]
    exact hkeep t hqt hg
  | resolveAll =>
    obtain ⟨r, t, hrun, hqt, hg, -⟩ := SymbolTable.run_resolveAll hq
    change ((Session.onSymbols SymbolTable.resolveAll).run s).2.Alike s
    rw [run_onSymbols hrun]
    exact hkeep t hqt hg

theorem Session.Alike.trans {s'' : Session} (h : s.Alike s') (h' : s'.Alike s'') : s.Alike s'' := by
  refine ⟨⟨h.symbols.quiet, h'.symbols.quiet',
    h'.symbols.definitions.trans h.symbols.definitions⟩, ?_⟩
  rw [h'.others, h.others]
  rfl

/-- A whole history: the induction carries that the session with the probes is like the one
without. -/
theorem answersAmid_of_alike (steps : List Step) (h : s.Alike s') :
    answersAmid fs s steps = answers fs s' (steps.filterMap Step.call?) := by
  induction steps generalizing s s' with
  | nil => rfl
  | cons step steps ih =>
    cases step with
    | call c =>
      obtain ⟨hanswer, hnext⟩ := perform_alike fs h c
      change (c.perform fs s).1 :: answersAmid fs (c.perform fs s).2 steps =
        (c.perform fs s').1 :: answers fs (c.perform fs s').2 (steps.filterMap Step.call?)
      rw [hanswer, ih hnext]
    | probe p =>
      have hprobe := probe_alike fs h.symbols.quiet p
      exact ih (hprobe.trans h)

theorem alike_new : Session.new.Alike .new := Session.alike_of_quiet SymbolTable.quiet_empty

/-- The table of a session is at rest after any calls. -/
theorem quiet_after (calls : List Call) : (Session.after fs calls).symbols.Quiet := by
  have hrun : ∀ s : Session, s.symbols.Quiet →
      (calls.foldl (fun s c => (Call.perform fs s c).2) s).symbols.Quiet := by
    induction calls with
    | nil => exact fun s hq => hq
    | cons c calls ih =>
      intro s hq
      have hnext := (perform_alike fs (Session.alike_of_quiet hq) c).2
      exact ih _ hnext.symbols.quiet
  exact hrun .new SymbolTable.quiet_empty

end Histories

/-- Links, look-ups and resolutions of all symbols can be put into any history of calls, wherever and
however often, and whether they succeed or fail: every call of the history answers as it does
without them. -/
theorem answers_unchanged_by_probes (fs : FileSystem) (steps : List Step) :
    answersAmid fs .new steps = answers fs .new (steps.filterMap Step.call?) :=
  answersAmid_of_alike fs steps alike_new

end Eleven.Assembly

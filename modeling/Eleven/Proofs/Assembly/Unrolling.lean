import Eleven.Assembly.Compile
import Eleven.Proofs.Assembly.Linking

/-! A block that is repeated is its body, written out as often as the count says. -/
namespace Eleven.Assembly

open Eleven.Files (FileSystem)
open Eleven.Source (Header Command)

/-- Commands up to the first end of source, of whose line only the labels are kept. -/
def upToEnd : List Command → List Command
  | [] => []
  | .single h .endOfSource :: _ => [.single h .nothing]
  | c :: cs => c :: upToEnd cs

/-- Runs all the commands, one after another. -/
def runAll (fs : FileSystem) (includer : Includer) : List Command → Attempt Session Unit
  | [] => pure ()
  | c :: cs => do
    let _ ← run fs includer c
    runAll fs includer cs

/-- A block written out: its labels, its count, and then `n` times its body. -/
def runUnrolled (fs : FileSystem) (includer : Includer) (h : Header) (count : Lazy)
    (body : List Command) (n : Nat) : Attempt Session Flow := do
  defineLabels h.position h.labels
  let _ ← Session.onSymbols (count.resolveInt SymbolTable.lookup)
  runAll fs includer (List.replicate n (upToEnd body)).flatten
  pure .next

section Body

variable {fs : FileSystem} {includer : Includer} {α : Type}

theorem runAll_append (cs cs' : List Command) :
    runAll fs includer (cs ++ cs') = (do runAll fs includer cs; runAll fs includer cs') := by
  induction cs with
  | nil => simp [runAll]
  | cons c cs ih => simp [runAll, ih]

/-- Only the end of the source stops the commands behind it. -/
theorem run_bind_of_ne_end {c : Command} (hc : ∀ h, c ≠ .single h .endOfSource)
    (f : Flow → Attempt Session α) :
    (run fs includer c >>= f) = (do let _ ← run fs includer c; f .next) := by
  cases c with
  | repetition h count body => simp [run]
  | single h o =>
    cases o with
    | endOfSource => exact absurd rfl (hc h)
    | _ => simp [run]

theorem runBody_bind (cs : List Command) (act : Attempt Session α) :
    (do let _ ← runBody fs includer cs; act) = (do runAll fs includer (upToEnd cs); act) := by
  induction cs with
  | nil => simp [runBody, upToEnd, runAll]
  | cons c cs ih =>
    by_cases hc : ∃ h, c = .single h .endOfSource
    · obtain ⟨h, rfl⟩ := hc
      have hnothing : Attempt.update (apply fs h .nothing) = pure () := rfl
      simp [runBody, run, upToEnd, runAll, hnothing]
    · have hbody : upToEnd (c :: cs) = c :: upToEnd cs := by
        rw [upToEnd]
        exact fun h heq => hc ⟨h, heq⟩
      rw [hbody, runAll, runBody, bind_assoc, bind_assoc, ← ih]
      exact run_bind_of_ne_end (fun h heq => hc ⟨h, heq⟩) _

theorem replay_bind (body : List Command) (n : Nat) (act : Attempt Session α) :
    (do replay (runBody fs includer body) n; act) =
      (do runAll fs includer (List.replicate n (upToEnd body)).flatten; act) := by
  induction n with
  | zero => rfl
  | succ n ih =>
    rw [replay, bind_assoc, List.replicate_succ, List.flatten_cons, runAll_append, bind_assoc, ← ih]
    exact runBody_bind body _

end Body

section Count

variable {count : Lazy} {n : Int64} {s : Session}

/-- A count that is known stays what it is when labels are defined. -/
theorem outcome_resolveInt_of_defineLabels {pos : Position} {labels : List String} {s' : Session}
    (hlabels : (defineLabels pos labels).run s = (.ok (), s'))
    (hcount : (count.resolveInt SymbolTable.lookup).outcome s.symbols = .ok n) :
    (count.resolveInt SymbolTable.lookup).outcome s'.symbols = .ok n := by
  induction labels generalizing s with
  | nil =>
    cases hlabels
    exact hcount
  | cons label labels ih =>
    obtain ⟨⟨⟩, m, hdefine, hrest⟩ := Attempt.run_bind_eq_ok.mp hlabels
    obtain ⟨t, ht, hm⟩ := bind_eq_ok.mp (Attempt.run_update_eq_ok.mp hdefine)
    cases hm
    obtain ⟨hfree, rfl⟩ := SymbolTable.define_eq_ok ht
    refine ih hrest ?_
    rcases hrun : (count.resolveInt SymbolTable.lookup).run s.symbols with ⟨r, t'⟩
    obtain rfl : r = .ok n := (Attempt.outcome_eq_of_run hrun).symm.trans hcount
    exact Attempt.outcome_eq_of_run (SymbolTable.outlasts_resolveInt count _ n t' hfree hrun).2

/-- A count that is known and not negative is taken as it is. -/
theorem run_repeatCount_bind {α : Type} (pos : Position) (f : Nat → Attempt Session α)
    (hcount : (count.resolveInt SymbolTable.lookup).outcome s.symbols = .ok n) (hn : 0 ≤ n) :
    (repeatCount pos count >>= f).run s =
      (do let _ ← Session.onSymbols (count.resolveInt SymbolTable.lookup)
          f n.toNatClampNeg).run s := by
  rcases hrun : (count.resolveInt SymbolTable.lookup).run s.symbols with ⟨r, t⟩
  obtain rfl : r = .ok n := (Attempt.outcome_eq_of_run hrun).symm.trans hcount
  have hresolve := run_onSymbols hrun
  have hrepeat : (repeatCount pos count).run s = (.ok n.toNatClampNeg, s.setSymbols t) := by
    rw [repeatCount, Attempt.run_mapFailure, Attempt.run_bind_ok hresolve,
      if_neg (Int64.not_lt.mpr hn)]
    rfl
  rw [Attempt.run_bind_ok hrepeat, Attempt.run_bind_ok hresolve]

end Count

/-- Handling a block is the same as handling what it stands for, written out: its labels, its count,
and then its body as often as the count says. An end of source in the body ends one copy of it. It
does not matter whether the count is known before or only behind the labels of its own line. -/
theorem run_repetition_unrolled (fs : FileSystem) (includer : Includer) (h : Header) (count : Lazy)
    (body : List Command) {s : Session} {n : Int64} (hn : 0 ≤ n)
    (hcount : (count.resolveInt SymbolTable.lookup).outcome s.symbols = .ok n ∨
      (do defineLabels h.position h.labels
          Session.onSymbols (count.resolveInt SymbolTable.lookup)).outcome s = .ok n) :
    (run fs includer (.repetition h count body)).run s =
      (runUnrolled fs includer h count body n.toNatClampNeg).run s := by
  rw [run, runUnrolled]
  rcases hlabels : (defineLabels h.position h.labels).run s with ⟨e | ⟨⟩, s'⟩
  · rw [Attempt.run_bind_error hlabels, Attempt.run_bind_error hlabels]
  · have hknown : (count.resolveInt SymbolTable.lookup).outcome s'.symbols = .ok n := by
      rcases hcount with hbefore | hbehind
      · exact outcome_resolveInt_of_defineLabels hlabels hbefore
      · rwa [Attempt.outcome, Attempt.run_bind_ok hlabels] at hbehind
    rw [Attempt.run_bind_ok hlabels, Attempt.run_bind_ok hlabels,
      run_repeatCount_bind h.position _ hknown hn, replay_bind]

/-- A block of two copies, each up to its end of source; the count is a constant not yet evaluated. -/
theorem run_repetition_unrolled_twice :
    let s : Session := { Session.new with symbols := ⟨[⟨"N", .int 2, .nowhere, .pending⟩]⟩ }
    let h : Header := ⟨["A"], ".REPEAT", .nowhere⟩
    let store (n : Int64) : Command := .single ⟨[], ".BYTE", .nowhere⟩ (.bytes [.int n])
    let stop : Header := ⟨[], ".END", .nowhere⟩
    ((Lazy.symbol "N").resolveInt SymbolTable.lookup).outcome s.symbols = .ok 2 ∧
      ∀ fs includer,
        (run fs includer (.repetition h (.symbol "N")
          [store 1, .single stop .endOfSource, store 2])).run s =
        (do defineLabels .nowhere ["A"]
            let _ ← Session.onSymbols ((Lazy.symbol "N").resolveInt SymbolTable.lookup)
            runAll fs includer
              [store 1, .single stop .nothing, store 1, .single stop .nothing]
            pure Flow.next).run s := by
  intro s h store stop
  have hcount : ((Lazy.symbol "N").resolveInt SymbolTable.lookup).outcome s.symbols = .ok 2 := rfl
  refine ⟨hcount, fun fs includer => ?_⟩
  have hrounds : Int64.toNatClampNeg 2 = 2 := by decide
  rw [run_repetition_unrolled fs includer h (.symbol "N") _ (by decide) (.inl hcount), hrounds]
  rfl

end Eleven.Assembly

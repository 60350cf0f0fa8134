import Eleven.Proofs.Assembly.ParallelRuns
import Eleven.Proofs.Source.NamingText

/-! Giving a constant a name changes nothing in what is assembled. -/
namespace Eleven.Assembly

open Eleven.Source (Naming Reader IsConstant sourceNames)

section Assembling

variable {text : String} {link : Int64}

/-- How a text includes files, were there any. By then the text and the file are open. -/
abbrev includer : Includer := includeWith noFiles (some (compile noFiles (maxIncludeDepth - 2)))

/-- The session in which the commands of a text are run. -/
def opened (link : Int64) : Session := enterFile (Path.clean "input") (Session.new.setLink link)

/-- The commands of a text, run in a new session. -/
def runText (text : String) (link : Int64) : Except Failure Unit × Session :=
  (runSource noFiles includer (Reader.commands "input" text)).run (opened link)

/-- What a run comes to once its file is closed: the image, and the session behind it. -/
def linked (r : Except Failure Unit × Session) : Except Failure (Image × Session) :=
  r.1 >>= fun _ => Session.linkImage.result (leaveFile r.2)

/-- The run succeeds and leaves a session that is linked to these bytes once its file is closed. -/
def LinksTo (r : Except Failure Unit × Session) (data : List UInt8) : Prop :=
  ∃ image w, linked r = .ok (image, w) ∧ image.data = data

theorem run_addSource_new (text : String) (link : Int64) :
    (Session.addSource noFiles "input" text).run (Session.new.setLink link) =
      ((runText text link).1, leaveFile (runText text link).2) := rfl

/-- Assembling a text is running its commands and linking what they leave. -/
theorem result_assemble (text : String) (link : Int64) :
    (Session.assemble noFiles text link).result .new =
      (linked (runText text link) >>= fun p => .ok (p.1.data, p.2)) := by
  have hsource := run_addSource_new text link
  unfold Session.assemble linked
  rw [Attempt.result_bind, Attempt.result_eq_of_run (Attempt.run_modify _ _), ok_bind,
    Attempt.result_bind]
  generalize runText text link = r at hsource ⊢
  rcases r with ⟨e | ⟨⟩, u⟩
  · rw [Attempt.result_eq_error hsource, error_bind, error_bind, error_bind]
  · rw [Attempt.result_eq_of_run hsource, ok_bind, ok_bind, Attempt.result_bind]
    rfl

theorem outcome_assemble_eq_ok {data : List UInt8} :
    (Session.assemble noFiles text link).outcome .new = .ok data ↔
      LinksTo (runText text link) data := by
  rw [Attempt.outcome_eq_ok_iff, result_assemble]
  constructor
  · rintro ⟨u, hresult⟩
    obtain ⟨⟨image, w⟩, hlinked, hdata⟩ := bind_eq_ok.mp hresult
    cases hdata
    exact ⟨image, w, hlinked, rfl⟩
  · rintro ⟨image, w, hlinked, rfl⟩
    exact ⟨w, by rw [hlinked, ok_bind]⟩

end Assembling

section Naming

variable {c : Naming}

theorem Fails.linked_eq_error {x : Attempt Session Unit} {s : Session} (h : Fails x s)
    (hsteady : Steady x) (hq : s.symbols.Quiet) : ∃ e, linked (x.run s) = .error e := by
  have hextends := hsteady s hq
  rcases hx : x.run s with ⟨e | ⟨⟩, u⟩
  · exact ⟨e, rfl⟩
  · rw [hx] at hextends
    have hdoomed : Doomed (leaveFile u) := h () u hx
    rcases hlink : Session.linkImage.run (leaveFile u) with ⟨e | image, w⟩
    · exact ⟨e, Attempt.result_eq_error hlink⟩
    · exact absurd hlink (hdoomed.linkImage hextends.quiet image w)

/-- Computations that tally leave sessions that are linked to the same bytes, if at all. The symbols
are the same but for the name. -/
theorem Tallies.linked {x y : Attempt Session Unit} (h : Tallies c x y) {s s' : Session}
    (hs : Parallel c s s') : Matched (SameImage c) (linked (x.run s)) (linked (y.run s')) := by
  rcases h.parallel s s' hs with ⟨_, u, u', hx, hy, hu⟩ | ⟨hx, hy⟩
  · have hleft : Parallel c (leaveFile u) (leaveFile u') :=
      ⟨hu.symbols, hu.pending, hu.pc, hu.link, hu.project, hu.koi8r⟩
    rw [hx, hy]
    exact hleft.linkImage
  · obtain ⟨e, he⟩ := hx.linked_eq_error h.steady hs.symbols.quiet
    obtain ⟨e', he'⟩ := hy.linked_eq_error h.steady' hs.symbols.quiet'
    rw [he, he']
    exact .error e e'

theorem Tallies.linksTo_iff {x y : Attempt Session Unit} (h : Tallies c x y) {s s' : Session}
    (hs : Parallel c s s') (data : List UInt8) :
    LinksTo (x.run s) data ↔ LinksTo (y.run s') data := by
  have hlinked := h.linked hs
  unfold LinksTo
  generalize Assembly.linked (x.run s) = r at hlinked ⊢
  generalize Assembly.linked (y.run s') = r' at hlinked ⊢
  cases hlinked with
  | error e e' => simp
  | @ok p p' hsame =>
    obtain ⟨image, w⟩ := p
    obtain ⟨image', w'⟩ := p'
    have hdata : image'.data = image.data := hsame.data
    constructor
    · rintro ⟨_, _, ⟨⟩, rfl⟩
      exact ⟨image', w', rfl, hdata⟩
    · rintro ⟨_, _, ⟨⟩, rfl⟩
      exact ⟨image, w, rfl, hdata.symm⟩

theorem names_define {t : SymbolTable} {pos : Position}
    (h : SymbolTable.empty.define c.key (.int c.value) pos = .ok t) :
    SymbolTable.Names c.key c.value .empty t := by
  have hbinding := SymbolTable.binding?_define h
  refine ⟨SymbolTable.quiet_empty, SymbolTable.quiet_empty.define h, ?_, ?_, rfl, ?_⟩
  · rw [hbinding, if_pos rfl]
  · intro name hname
    rw [hbinding, if_neg hname]
    exact .none
  · obtain ⟨-, rfl⟩ := SymbolTable.define_eq_ok h
    exact SymbolTable.names_push _ _

/-- Once the name is defined, a new session is parallel to one without it. -/
theorem run_definition (inc : Includer) (link : Int64) (pos : Position) :
    ∃ u, (run noFiles inc (.single ⟨[], ".EQU", pos⟩ (.equate c.key (.int c.value)))).run
        (opened link) = (.ok .next, u) ∧ Parallel c (opened link) u := by
  obtain ⟨t, ht⟩ : ∃ t, SymbolTable.empty.define c.key (.int c.value) pos = .ok t := ⟨_, rfl⟩
  refine ⟨(opened link).setSymbols t, ?_, ?_⟩
  · have hupdate : (Attempt.update (apply noFiles ⟨[], ".EQU", pos⟩
        (.equate c.key (.int c.value)))).run (opened link) =
          (.ok (), (opened link).setSymbols t) := by
      rw [Attempt.run_update_eq_ok, apply, Session.define]
      change (SymbolTable.empty.define c.key (.int c.value) pos >>= _) = _
      rw [ht]
      rfl
    have hlabels : (defineLabels pos []).run (opened link) = (.ok (), opened link) := rfl
    unfold run
    rw [Attempt.run_bind_ok hlabels]
    exact Attempt.run_bind_ok hupdate _
  · exact ⟨names_define ht, .nil, Lazy.sameInt_int link, Lazy.sameInt_int link, rfl, rfl⟩

/-- A constant of an expression, or of the count of a block, may as well be a symbol that the first
line defines: both texts fail to be assembled, or both yield the same bytes. -/
theorem assemble_replaced (c : Naming) (hvalue : 0 ≤ c.value) {before w after : String}
    (h : IsConstant before w after c.value)
    (hfresh : c.key ∉ sourceNames (before ++ w ++ after)) (link : Int64) :
    Matched Eq ((Session.assemble noFiles (before ++ w ++ after) link).outcome .new)
      ((Session.assemble noFiles (c.replaced before after) link).outcome .new) := by
  have hnonneg : 0 ≤ c.value.toInt := Int64.le_iff_toInt_le.mp hvalue
  obtain ⟨pos, xs, hcommands, hturns⟩ := Naming.commands_replaced hnonneg h hfresh "input"
  obtain ⟨s, hdefinition, hs⟩ := run_definition (c := c) includer link pos
  have hright : runText (c.replaced before after) link = (runSource noFiles includer xs).run s := by
    rw [runText, hcommands, runSource, Attempt.run_bind_ok hdefinition]
  have htallies : Tallies c
      (runSource noFiles includer (Reader.commands "input" (before ++ w ++ after)))
      (runSource noFiles includer xs) :=
    tallies_runSource (tallies_include _ _) hturns
  apply Matched.of_eq_ok_iff
  intro data
  rw [outcome_assemble_eq_ok, outcome_assemble_eq_ok, hright]
  exact htallies.linksTo_iff hs data

/-- A name for the number of rounds of a block. -/
def rounds : Naming where
  name := "Rounds"
  value := 3
  isName := ⟨'R', ['o', 'u', 'n', 'd', 's'], rfl, rfl, List.all_eq_true.mp rfl⟩
  notRegister := by decide

/-- What stands behind the number of rounds: a block that needs a label after it. -/
def behindRounds : String := " \x7b\n.BYTE B-A\n\x7d\nB: .ALIGN 4\n"

theorem assemble_replaced_rounds :
    IsConstant "A: .REPEAT " "3" behindRounds 3 ∧
    rounds.replaced "A: .REPEAT " behindRounds =
      "Rounds = 0x3\nA: .REPEAT  Rounds  \x7b\n.BYTE B-A\n\x7d\nB: .ALIGN 4\n" ∧
    (Session.assemble noFiles (rounds.replaced "A: .REPEAT " behindRounds) 0).outcome .new =
      .ok [3, 3, 3, 0] := by
  have hconstant : IsConstant "A: .REPEAT " "3" behindRounds 3 := by
    refine ⟨by decide, [⟨.ident "A", 1⟩, ⟨.punct ':', 2⟩, ⟨.ident ".REPEAT", 4⟩, ⟨.number "3", 12⟩,
      ⟨.punct '\x7b', 14⟩], ⟨.number "3", 12⟩, ?_⟩
    refine ⟨by decide +kernel, by decide +kernel, by decide +kernel, ?_, by decide +kernel⟩
    exact .number rfl (by simp)
  have hfresh : rounds.key ∉ sourceNames ("A: .REPEAT " ++ "3" ++ behindRounds) := by
    decide +kernel
  have hplain : (Session.assemble noFiles ("A: .REPEAT " ++ "3" ++ behindRounds) 0).outcome .new =
      .ok [3, 3, 3, 0] := by
    decide +kernel
  refine ⟨hconstant, by decide +kernel, ?_⟩
  have hsame := assemble_replaced rounds (by decide) hconstant hfresh 0
  exact (hsame.eq_ok_iff _).mp hplain

end Naming

end Eleven.Assembly

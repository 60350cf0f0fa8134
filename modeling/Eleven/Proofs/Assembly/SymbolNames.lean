import Eleven.Proofs.Assembly.Agreement
import Eleven.Proofs.Lazy.Raising
import Eleven.Proofs.Source.DefinedNames

/-! The names in the symbol table. A source puts names there that it or a file included by it defines,
and no others; each can be referred to unless an equation gives it the name of a register or one with
a dot. -/
namespace Eleven

theorem Lazy.stepsRaise_true (v : Lazy) : v.StepsRaise fun _ => True := by
  induction v with
  | blank => trivial
  | literal d => trivial
  | symbol name => trivial
  | offset base k ih => exact ih
  | binary op a b iha ihb => exact ⟨iha, ihb⟩
  | repeated count elem ihc ihe => exact ⟨ihc, ihe⟩
  | select cond a b ihc iha ihb => exact ⟨ihc, iha, ihb⟩
  | step v f k ih => exact ⟨ih, fun d => ensures_true (f d)⟩

namespace Assembly

open Eleven.Files (FileSystem)
open Eleven.Machine (Register)
open Eleven.Source (Header Operation Command Reader SourceFile Route IsReference)

/-- The name is defined by a command of the file, or by one of a file included by it. -/
inductive Introduced (fs : FileSystem) (route : Route) (name : String) : SourceFile → Prop
  | here {f : SourceFile} {c : Command} (hc : c ∈ f.outline) (h : c.Introduces name route) :
    Introduced fs route name f
  | included {f : SourceFile} {h : Header} {target : String} {bytes : List UInt8}
    (hc : .single h (.includeFile target) ∈ f.outline)
    (hread : fs.read (Path.resolve h.position.file target) = .ok bytes)
    (hinner : Introduced fs route name
      ⟨Path.resolve h.position.file target, Text.decodeUtf8 bytes⟩) :
    Introduced fs route name f

/-- Every name of the symbol table satisfies `P`. -/
def Session.NamesHold (P : String → Prop) (s : Session) : Prop :=
  s.symbols.Holds fun y => P y.name

/-- The computation adds only names that satisfy `P`. -/
abbrev AddsNames {α : Type} (P : String → Prop) (x : Attempt Session α) : Prop :=
  Raises (Session.NamesHold P) (fun _ => True) x

section Parts

variable {P : String → Prop} {fs : FileSystem}

theorem ensures_define_name {s : Session} (hs : s.NamesHold P) {name : String} (hname : P name)
    (v : Lazy) (pos : Position) :
    Ensures (Session.NamesHold P) (fun _ => True) (s.define name v pos) := by
  have htable : Ensures (SymbolTable.Holds fun y => P y.name) (fun _ => True)
      (s.symbols.define name v pos) := hs.define hname trivial
  exact htable.bind fun t ht => ht

theorem addsNames_defineLabels {labels : List String} (hlabels : ∀ name ∈ labels, P name)
    (pos : Position) : AddsNames P (defineLabels pos labels) := by
  induction labels with
  | nil => exact raises_pure ()
  | cons label labels ih =>
    rw [List.forall_mem_cons] at hlabels
    have hfirst : AddsNames P (Attempt.update fun s : Session => s.define label s.pc pos) :=
      raises_update fun s hs => ensures_define_name hs hlabels.1 s.pc pos
    exact hfirst.bind fun _ => ih hlabels.2

theorem addsNames_apply {h : Header} {o : Operation} (ho : ∀ name v, o = .equate name v → P name) :
    AddsNames P (Attempt.update (apply fs h o)) := by
  apply raises_update
  intro s hs
  by_cases hequate : ∃ name v, o = .equate name v
  · obtain ⟨name, v, rfl⟩ := hequate
    exact ensures_define_name hs (ho name v rfl) v h.position
  · have hother : ∀ name v, o ≠ .equate name v := fun name v heq => hequate ⟨name, v, heq⟩
    cases happly : apply fs h o s with
    | error e => trivial
    | ok u =>
      change u.symbols.Holds _
      rw [symbols_of_apply fs h hother happly]
      exact hs

theorem addsNames_repeatCount (pos : Position) (count : Lazy) :
    AddsNames P (repeatCount pos count) := by
  have hlookup : ∀ name, Raises (SymbolTable.Holds fun y => P y.name) (fun _ => True)
      (SymbolTable.lookup name) :=
    SymbolTable.raises_lookup (fun _ => trivial) fun y _ => y.value.stepsRaise_true
  have hresolve : AddsNames P (Session.onSymbols (count.resolveInt SymbolTable.lookup)) :=
    (count.stepsRaise_true.raises_resolveInt (fun _ => trivial) hlookup).onPart
      (fun _ hs => hs) fun _ _ _ ht => ht
  have hchecked : AddsNames P (do
      let n ← Session.onSymbols (count.resolveInt SymbolTable.lookup)
      if n < 0 then throw (.fault (.negativeCount n)) else pure n.toNatClampNeg) := by
    apply hresolve.bind
    intro n
    split
    · exact raises_throw trivial
    · exact raises_pure _
  exact hchecked.mapFailure fun _ _ => trivial

theorem addsNames_replay {body : Attempt Session Flow} (hbody : AddsNames P body) (n : Nat) :
    AddsNames P (replay body n) := by
  induction n with
  | zero => exact raises_pure ()
  | succ n ih => exact hbody.bind fun _ => ih

end Parts

section Commands

variable {P : String → Prop} {fs : FileSystem} {inc : Includer}

/-- The names that the commands define satisfy `P`, and so do those of the files that they include. -/
structure Covers (P : String → Prop) (inc : Includer) (cs : List Command) : Prop where
  introduced : ∀ c ∈ cs, ∀ route name, c.Introduces name route → P name
  included : ∀ h target, .single h (.includeFile target) ∈ cs → AddsNames P (inc h target)

theorem Covers.mono {cs ds : List Command} (h : Covers P inc ds) (hsub : cs ⊆ ds) :
    Covers P inc cs :=
  ⟨fun c hc => h.introduced c (hsub hc), fun hd target hc => h.included hd target (hsub hc)⟩

mutual

theorem addsNames_run (c : Command) (hc : Covers P inc c.outline) : AddsNames P (run fs inc c) := by
  cases c with
  | single h o =>
    have hself : Command.single h o ∈ (Command.single h o).outline := List.mem_singleton_self _
    have hlabels : ∀ name ∈ h.labels, P name := fun name hname =>
      hc.introduced _ hself .label name hname
    unfold run
    apply (addsNames_defineLabels hlabels h.position).bind
    intro _
    split
    · exact raises_pure _
    · exact (hc.included h _ hself).bind fun _ => raises_pure _
    · have ho : ∀ name v, o = .equate name v → P name := fun name v heq =>
        hc.introduced _ hself .equation name ⟨h, v, by rw [heq]⟩
      exact (addsNames_apply ho).bind fun _ => raises_pure _
  | repetition h count body =>
    have hself : Command.repetition h count [] ∈ (Command.repetition h count body).outline :=
      List.mem_cons_self
    have hlabels : ∀ name ∈ h.labels, P name := fun name hname =>
      hc.introduced _ hself .label name hname
    have hbody : Covers P inc (Command.outlineAll body) := hc.mono (List.subset_cons_self _ _)
    unfold run
    apply (addsNames_defineLabels hlabels h.position).bind
    intro _
    apply (addsNames_repeatCount h.position count).bind
    intro n
    exact (addsNames_replay (addsNames_runBody body hbody) n).bind fun _ => raises_pure _

theorem addsNames_runBody (cs : List Command) (hcs : Covers P inc (Command.outlineAll cs)) :
    AddsNames P (runBody fs inc cs) := by
  cases cs with
  | nil =>
    unfold runBody
    exact raises_pure _
  | cons c cs =>
    have hfirst : Covers P inc c.outline := hcs.mono (List.subset_append_left _ _)
    have hrest : Covers P inc (Command.outlineAll cs) := hcs.mono (List.subset_append_right _ _)
    unfold runBody
    apply (addsNames_run c hfirst).bind
    intro flow
    cases flow with
    | stop => exact raises_pure _
    | next => exact addsNames_runBody cs hrest

end

theorem addsNames_runSource {cs : List (Except Failure Command)}
    (hcs : Covers P inc (Command.outlineAll (cs.filterMap Except.toOption))) :
    AddsNames P (runSource fs inc cs) := by
  induction cs with
  | nil => exact raises_pure ()
  | cons x cs ih =>
    cases x with
    | error e => exact raises_throw trivial
    | ok c =>
      have hfirst : Covers P inc c.outline := hcs.mono (List.subset_append_left _ _)
      have hrest : Covers P inc (Command.outlineAll (cs.filterMap Except.toOption)) :=
        hcs.mono (List.subset_append_right _ _)
      unfold runSource
      apply (addsNames_run c hfirst).bind
      intro flow
      cases flow with
      | stop => exact raises_pure ()
      | next => exact ih hrest

end Commands

section Files

variable {P : String → Prop} {fs : FileSystem}

theorem addsNames_inFile {act : Attempt Session Unit} (hact : AddsNames P act) (file : String) :
    AddsNames P (inFile file act) := by
  intro s hs
  obtain ⟨hafter, hfailure⟩ := hact (enterFile file s) hs
  exact ⟨hafter, hfailure⟩

theorem addsNames_includeWith {compile? : Option (String → String → Attempt Session Unit)}
    {h : Header} {target : String}
    (hcompile : ∀ compile ∈ compile?, ∀ bytes,
      fs.read (Path.resolve h.position.file target) = .ok bytes →
        AddsNames P (compile (Path.resolve h.position.file target) (Text.decodeUtf8 bytes))) :
    AddsNames P (includeWith fs compile? h target) := by
  have hopen : AddsNames P (deferred fs).openFiles := fun s hs => ⟨hs, trivial⟩
  rw [← includeWith_deferred fs]
  unfold Backend.includeWith
  apply hopen.bind
  intro files
  split
  · exact raises_throw trivial
  · unfold Backend.included
    split
    · exact raises_throw trivial
    · split
      · exact raises_throw trivial
      · next bytes hread => exact hcompile _ rfl bytes hread

/-- A file adds the names that it introduces. The induction is on the number of files that may be
open inside it. -/
theorem addsNames_compile (room : Nat) {f : SourceFile}
    (hf : ∀ route name, Introduced fs route name f → P name) :
    AddsNames P (compile fs room f.name f.text) := by
  induction room generalizing f with
  | zero =>
    have hcovers : Covers P (includeWith fs none) f.outline := by
      refine ⟨fun c hc route name h => hf route name (.here hc h), fun h target hc => ?_⟩
      apply addsNames_includeWith
      intro compile hnone
      cases hnone
    exact addsNames_inFile (addsNames_runSource hcovers) _
  | succ room ih =>
    have hcovers : Covers P (includeWith fs (some (compile fs room))) f.outline := by
      refine ⟨fun c hc route name h => hf route name (.here hc h), fun h target hc => ?_⟩
      apply addsNames_includeWith
      intro compile hsome bytes hread
      cases hsome
      exact ih (f := ⟨_, _⟩) fun route name hinner => hf route name (.included hc hread hinner)
    exact addsNames_inFile (addsNames_runSource hcovers) _

end Files

section Tables

variable {fs : FileSystem} {f : SourceFile} {name : String}

theorem Introduced.exists_isIdent {route : Route} (h : Introduced fs route name f) :
    ∃ spelled, Source.IsIdent spelled ∧ name = Text.upper spelled ∧
      (route = .label → Register.ofName? spelled = none ∧ Source.isDotted spelled = false) := by
  induction h with
  | here hc h => exact Source.exists_isIdent_of_introduces hc h
  | included _ _ _ ih => exact ih

theorem Introduced.isReference_iff {route : Route} (h : Introduced fs route name f) :
    IsReference name ↔ Register.ofName? name = none ∧ Source.isDotted name = false := by
  obtain ⟨spelled, hident, rfl, -⟩ := h.exists_isIdent
  exact hident.upper.isReference_iff (Text.upper_upper spelled)

/-- The checks on labels are those on references. -/
theorem Introduced.isReference_of_label (h : Introduced fs .label name f) : IsReference name := by
  obtain ⟨spelled, hident, rfl, hlabel⟩ := h.exists_isIdent
  rw [hident.upper.isReference_iff (Text.upper_upper spelled), Source.ofName?_upper,
    Source.isDotted_upper]
  exact hlabel rfl

theorem namesHold_iff {P : String → Prop} {s : Session} :
    s.NamesHold P ↔ ∀ name, s.symbols.has name = true → P name := by
  have hhas : ∀ name, s.symbols.has name = true ↔ ∃ y ∈ s.symbols.symbols, y.name = name := by
    intro name
    rw [SymbolTable.has, SymbolTable.find?, List.find?_isSome]
    simp only [beq_iff_eq]
  simp only [Session.NamesHold, SymbolTable.Holds, SymbolTable.definitions, List.forall_mem_map, hhas]
  constructor
  · rintro h _ ⟨y, hy, rfl⟩
    exact h y hy
  · intro h y hy
    exact h y.name ⟨y, hy, rfl⟩

/-- Adding a source puts into the table names that it introduces, directly or through the files that
it includes. -/
theorem exists_introduced_of_addSource {file text : String} {s s' : Session}
    {r : Except Failure Unit} (hrun : (Session.addSource fs file text).run s = (r, s'))
    (hnew : s.symbols.has name = false) (hhas : s'.symbols.has name = true) :
    ∃ route, Introduced fs route name ⟨file, text⟩ := by
  -- the names from before may stay, and those that the source introduces may come
  let allowed : String → Prop := fun name =>
    s.symbols.has name = true ∨ ∃ route, Introduced fs route name ⟨file, text⟩
  have hcompile := addsNames_compile (P := allowed) (maxIncludeDepth - 1 - s.files.length)
    (f := ⟨file, text⟩) fun route name h => .inr ⟨route, h⟩
  have hbefore : s.NamesHold allowed := namesHold_iff.mpr fun name h => .inl h
  have hafter := (hcompile s hbefore).1
  rw [Session.addSource, Attempt.run_bind_ok (Attempt.run_get s)] at hrun
  rw [hrun] at hafter
  rcases namesHold_iff.mp hafter name hhas with hold | hintroduced
  · rw [hnew] at hold
    cases hold
  · exact hintroduced

/-- Every name that adding a source puts into the table, whether this succeeds or fails, is introduced
by a command of the source or of a file included by it. It can be referred to exactly if it is not one
of a register and has no dot in front. One that cannot comes from an equation and is no label. -/
theorem defined_names (fs : FileSystem) (file text : String) {s s' : Session}
    {r : Except Failure Unit} (hrun : (Session.addSource fs file text).run s = (r, s')) :
    ∀ name, s.symbols.has name = false → s'.symbols.has name = true →
      (∃ route, Introduced fs route name ⟨file, text⟩) ∧
      (IsReference name ↔ Register.ofName? name = none ∧ Source.isDotted name = false) ∧
      (¬ IsReference name →
        Introduced fs .equation name ⟨file, text⟩ ∧ ¬ Introduced fs .label name ⟨file, text⟩) := by
  intro name hnew hhas
  obtain ⟨route, hroute⟩ := exists_introduced_of_addSource hrun hnew hhas
  refine ⟨⟨route, hroute⟩, hroute.isReference_iff, fun hnot => ?_⟩
  have hlabel : ¬ Introduced fs .label name ⟨file, text⟩ := fun h => hnot h.isReference_of_label
  cases route with
  | label => exact absurd hroute hlabel
  | equation => exact ⟨hroute, hlabel⟩

/-- A label and a name given by an equation. -/
theorem defined_names_labelled :
    ((Session.addSource noFiles "a" "l: x = 5").run Session.new).2.symbols.has "L" = true ∧
      ((Session.addSource noFiles "a" "l: x = 5").run Session.new).2.symbols.has "X" = true ∧
      IsReference "L" ∧ IsReference "X" := by
  have hL : ((Session.addSource noFiles "a" "l: x = 5").run Session.new).2.symbols.has "L" =
      true := by decide +kernel
  have hX : ((Session.addSource noFiles "a" "l: x = 5").run Session.new).2.symbols.has "X" =
      true := by decide +kernel
  have hdefined := defined_names noFiles "a" "l: x = 5" (s := Session.new) rfl
  exact ⟨hL, hX, (hdefined "L" rfl hL).2.1.mpr (by decide +kernel),
    (hdefined "X" rfl hX).2.1.mpr (by decide +kernel)⟩

/-- Equations may define names that no expression can refer to. -/
theorem defined_register :
    ((Session.addSource noFiles "a" "R0 = 5\n.EQU .x, 6").run Session.new).2.symbols.has "R0" =
        true ∧
      ((Session.addSource noFiles "a" "R0 = 5\n.EQU .x, 6").run Session.new).2.symbols.has ".X" =
        true ∧
      ¬ IsReference "R0" ∧ ¬ IsReference ".X" := by
  have hR0 : Source.tokenize "R0" = .ok [⟨.ident "R0", 1⟩] := by decide +kernel
  have hX : Source.tokenize ".X" = .ok [⟨.ident ".X", 1⟩] := by decide +kernel
  refine ⟨by decide +kernel, by decide +kernel, fun href => ?_, fun href => ?_⟩
  · have hident := Source.isIdent_of_tokenize hR0 List.mem_cons_self rfl
    have hplain := (hident.isReference_iff (by decide +kernel)).mp href
    exact absurd hplain.1 (by decide +kernel)
  · have hident := Source.isIdent_of_tokenize hX List.mem_cons_self rfl
    have hplain := (hident.isReference_iff (by decide +kernel)).mp href
    exact absurd hplain.2 (by decide +kernel)

end Tables

end Assembly

end Eleven

import Eleven.Proofs.Assembly.Transparency
import Mathlib.Data.Set.Finite.Basic

/-! The case of letters makes no difference outside quotes. Two texts that differ in it are compared
through a third one, which is the second text behind the definition of a name that neither uses. -/
namespace Eleven.Assembly

open Eleven.Source (Naming Reader foldedText sourceNames)

section Fresh

/-- A name of any length. -/
def longName (n : Nat) : String := String.ofList (List.replicate (n + 1) 'A')

theorem longName_injective : Function.Injective longName := by
  intro m n h
  have hlength := congrArg (fun s => s.toList.length) h
  simpa [longName] using hlength

theorem upper_longName (n : Nat) : Text.upper (longName n) = longName n := by
  rw [Text.upper, longName, String.toList_ofList, List.map_replicate]
  rfl

/-- A long name for zero. -/
def zeroNamed (n : Nat) : Naming where
  name := longName n
  value := 0
  isName := by
    refine ⟨'A', List.replicate n 'A', String.toList_ofList, rfl, fun x hx => ?_⟩
    rw [List.eq_of_mem_replicate hx]
    rfl
  notRegister := by
    have hfirst : (longName n).toList.head? = some 'A' := by
      rw [longName, String.toList_ofList]
      rfl
    unfold Machine.Register.ofName?
    rw [upper_longName]
    split
    case h_11 => rfl
    all_goals
      rename_i hname
      rw [hname] at hfirst
      cases hfirst

theorem exists_fresh (names : List String) : ∃ c : Naming, 0 ≤ c.value.toInt ∧ c.key ∉ names := by
  have hinfinite := Set.infinite_range_of_injective longName_injective
  obtain ⟨_, ⟨n, rfl⟩, hfresh⟩ := hinfinite.exists_notMem_finset names.toFinset
  rw [List.mem_toFinset] at hfresh
  refine ⟨zeroNamed n, Int.le_refl 0, ?_⟩
  rwa [Naming.key, zeroNamed, upper_longName]

end Fresh

/-- A text comes to the same when a name is defined first and its constants are replaced by it. -/
theorem matched_defining {c : Naming} (hvalue : 0 ≤ c.value.toInt) {text text' : String}
    (hturns : c.TurnsLines false (Text.lines text) (Text.lines text')) (link : Int64) :
    Matched (SameImage c) (linked (runText text link))
      (linked (runText (c.defining text') link)) := by
  obtain ⟨pos, xs, hcommands, hturns⟩ := Naming.commands_defining hvalue hturns "input"
  obtain ⟨s, hdefinition, hs⟩ := run_definition (c := c) includer link pos
  have hright : runText (c.defining text') link = (runSource noFiles includer xs).run s := by
    rw [runText, hcommands, runSource, Attempt.run_bind_ok hdefinition]
  rw [hright]
  exact (tallies_runSource (tallies_include _ _) hturns).linked hs

/-- Two texts whose lines differ in the case of names and numbers only both fail to be assembled, or
both yield the same bytes and leave the same symbols with the same values. -/
theorem assemble_folded {text text' : String} (h : foldedText text' = foldedText text)
    (link : Int64) :
    Matched (fun r r' => r'.1 = r.1 ∧ r'.2.symbols.names = r.2.symbols.names ∧
        r'.2.symbols.values = r.2.symbols.values)
      ((Session.assemble noFiles text link).result .new)
      ((Session.assemble noFiles text' link).result .new) := by
  obtain ⟨c, hvalue, hfresh⟩ := exists_fresh (sourceNames text ++ sourceNames text')
  obtain ⟨hleft, hright⟩ := not_or.mp (mt List.mem_append.mpr hfresh)
  have hturns : c.TurnsLines false (Text.lines text) (Text.lines text') :=
    Naming.turnsLines_of_folded h (Naming.fresh_of_sourceNames hleft)
  have hturns' : c.TurnsLines false (Text.lines text') (Text.lines text') :=
    Naming.turnsLines_of_folded rfl (Naming.fresh_of_sourceNames hright)
  have hlinked := matched_defining hvalue hturns link
  have hlinked' := matched_defining hvalue hturns' link
  rw [result_assemble, result_assemble]
  refine (hlinked.trans hlinked'.symm).bind ?_
  intro p p' hmiddle
  obtain ⟨q, hp, hp'⟩ := hmiddle
  refine .ok ⟨hp'.data.symm.trans hp.data, ?_, ?_⟩
  · exact (List.cons.inj (hp'.names.symm.trans hp.names)).2
  · exact (List.cons.inj (hp'.values.symm.trans hp.values)).2

/-- The name of a dialect, a label, a register and a number. The texts below differ in their case;
the quoted characters are the same. -/
def mixedCase : String := ".Syntax pdpy11\nTop: mov #0xaF, r0\n.Ascii \"aB\"\n.word TOP"

def otherCase : String := ".SYNTAX PDPy11\ntOP: MOV #0XAf, R0\n.ASCII \"aB\"\n.Word Top ; A"

theorem assemble_folded_otherCase :
    foldedText otherCase = foldedText mixedCase ∧
    ∃ s, (Session.assemble noFiles otherCase 0o10).result .new =
        .ok ([0xC0, 0x15, 0xAF, 0, 0x61, 0x42, 8, 0], s) ∧
      s.symbols.values = [("TOP", 8)] := by
  have hfolded : foldedText otherCase = foldedText mixedCase := by decide +kernel
  have hmixed : ((Session.assemble noFiles mixedCase 0o10).result .new).toOption.map
      (fun r => (r.1, r.2.symbols.values)) =
        some ([0xC0, 0x15, 0xAF, 0, 0x61, 0x42, 8, 0], [("TOP", 8)]) := by
    decide +kernel
  refine ⟨hfolded, ?_⟩
  have hsame := assemble_folded hfolded 0o10
  generalize (Session.assemble noFiles mixedCase 0o10).result .new = r at hmixed hsame
  generalize (Session.assemble noFiles otherCase 0o10).result .new = r' at hsame ⊢
  cases hsame with
  | error e e' => cases hmixed
  | @ok p p' h =>
    obtain ⟨hdata, -, hvalues⟩ := h
    obtain ⟨hbytes, htable⟩ := Prod.mk.inj (Option.some.inj hmixed)
    refine ⟨p'.2, ?_, hvalues.trans htable⟩
    rw [← hdata.trans hbytes]

end Eleven.Assembly

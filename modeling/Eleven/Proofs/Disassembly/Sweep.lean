import Eleven.Disassembly.Listing
import Eleven.Proofs.Disassembly.RoundTrip

/-! The lines of a linear sweep assemble to the image they were decoded from, unless a branch among
them leads out of the address space. -/
namespace Eleven.Disassembly

open Eleven.Assembly (Session)
open Eleven.Files (FileSystem)
open Eleven.Machine (Instruction unsignedWord wordOfBytes wordsToBytes)
open Eleven.Source (Lexeme Spelled breaks_nil breaks_cons)

/-- A sweep names places by their addresses. -/
def noLabels : Labels := fun _ => none

section Lines

variable {n : Nat}

theorem spelled_lineText {l : Line} (hname : isPrintedName l.mnemonic = true) {ls : List Lexeme}
    (h : Spelled (", ".intercalate (l.args.map Arg.text)).toList ls) :
    Spelled l.text.toList (.ident l.mnemonic :: ls) := by
  unfold Line.text Line.operands
  cases hargs : l.args with
  | nil =>
    rw [hargs] at h
    cases h
    have hline := isPrintedName_spelled hname breaks_nil .nil
    rwa [List.append_nil] at hline
  | cons arg args =>
    rw [hargs] at h
    have hline := isPrintedName_spelled hname (breaks_cons (c := ' ') rfl _)
      (.blank (c := ' ') (.inl rfl) h)
    simpa using hline

/-- A line with a directive that stores one number. -/
theorem yields_number (l : Line) (name : String) {m : Nat} {k : Source.Keyword}
    {o : Source.Operation} (hmnemonic : l.mnemonic = name)
    (hargs : l.args = [.constant (Int64.ofNat m)]) (hm : m < 2 ^ 63)
    (hname : isPrintedName name = true) (hdotted : Source.isDotted name = true)
    (hk : Source.Keyword.ofName? name = some k) (hblock : k ≠ .repetition)
    (hdecimal : name ≠ ".DECIMALNUMBERS")
    (harguments : ∀ ts, Source.expressionList false (ts.length + 1) ts =
      .ok ([.int (Int64.ofNat m)], []) → Source.arguments false k ts = .ok (o, [])) :
    Source.Yields l.text fun c => ∃ pos, c = .single ⟨[], name, pos⟩ o := by
  have hupper := isPrintedName_upper hname
  have hoctal := spelled_octal hm breaks_nil .nil
  rw [List.append_nil] at hoctal
  have hline : Spelled l.text.toList [.ident name, .number (Text.bareOctal (Int64.ofNat m))] := by
    rw [← hmnemonic] at hname ⊢
    refine spelled_lineText hname ?_
    rw [hargs]
    simpa [Arg.text] using hoctal
  have hyields := Source.yields_of_directive (k := k) (o := o) hline (by simp) (by simp)
    (by rwa [hupper]) (by rwa [hupper]) hblock (by rwa [hupper]) fun ts hts => harguments ts ?_
  · rwa [hupper] at hyields
  · refine Source.expressionList_atoms (.cons (Source.isAtom_number hm) .nil) (by simp) hts _ ?_
    rw [← List.length_map (f := Source.Token.lexeme), hts]
    exact Nat.le_succ 1

theorem staysInside_of_data {l : Line} (hl : l.isInstruction = false) : l.StaysInside := by
  have hkind : l.kind = .zero := by
    unfold Line.isInstruction at hl
    unfold Line.kind
    split at hl
    · cases hl
    · rfl
  have htarget : l.branchTarget? = none := by
    unfold Line.branchTarget?
    rw [hkind]
    split <;> rfl
  intro t ht
  rw [htarget] at ht
  cases ht

/-- A word that is no instruction. -/
theorem assembles_wordLine (w : UInt16) (hn : n + 2 ≤ 0o200000) :
    Assembles noLabels n ((Line.mk (Int64.ofNat n) [w] (.word w)).text ++ "\n")
      (wordsToBytes [w]) [⟨Int64.ofNat n, [w], .word w⟩] [] := by
  have hw := w.toNat_lt
  have hyields := yields_number ⟨Int64.ofNat n, [w], .word w⟩ ".WORD"
    (k := .words) (o := .words [.int (unsignedWord w)]) rfl rfl
    (Nat.lt_of_lt_of_le hw (by decide)) (by decide) rfl rfl (by decide) (by decide)
    fun ts hts => by rw [Source.arguments, hts]; rfl
  refine assembles_line hyields ?_
  rintro _ ⟨pos, rfl⟩ fs inc s hs _ _
  refine ⟨s.writeWords [.int (unsignedWord w)] pos, ?_, run_single rfl rfl rfl⟩
  refine advances_writeWords hs rfl (by simp) (by simpa using hn)
    (List.forall_mem_singleton.mpr (staysInside_of_data rfl)) fun env _ => ?_
  have hint := Machine.toInt_unsignedWord w
  have hnone : Assembly.storedWords env pos [] = .ok [] := rfl
  have hword := Assembly.storedWords_cons (v := .int (unsignedWord w)) rfl (by omega) (by omega)
    hnone
  rwa [Machine.wrapAddress_unsignedWord] at hword

/-- A last byte. -/
theorem assembles_lastByte (b : UInt8) (hn : n + 1 ≤ 0o200000) :
    Assembles noLabels n ((Line.mk (Int64.ofNat n) [] (.byte b)).text ++ "\n") [b]
      [⟨Int64.ofNat n, [], .byte b⟩] [] := by
  have hyields := yields_number ⟨Int64.ofNat n, [], .byte b⟩ ".BYTE"
    (k := .bytes) (o := .bytes [.int (Int64.ofNat b.toNat)]) rfl rfl
    (Nat.lt_of_lt_of_le b.toNat_lt (by decide)) (by decide) rfl rfl (by decide) (by decide)
    fun ts hts => by rw [Source.arguments, hts]; rfl
  refine assembles_line hyields ?_
  rintro _ ⟨pos, rfl⟩ fs inc s hs _ _
  have hbyte := @advances_writeByte noLabels n s hs (by omega) b pos
  refine ⟨s.writeByte (.int (Int64.ofNat b.toNat)) pos, ⟨fun env henv => ?_, hbyte.counter,
    hbyte.symbols, hbyte.link, hbyte.koi8r⟩, run_single rfl rfl rfl⟩
  obtain ⟨new, hnew, hstored, -⟩ := hbyte.stores env henv
  have hstay : ∀ l ∈ [(⟨Int64.ofNat n, [], .byte b⟩ : Line)], l.StaysInside :=
    List.forall_mem_singleton.mpr (staysInside_of_data rfl)
  exact ⟨new, hnew, fun _ => hstored (by simp), fun h => absurd hstay h⟩

theorem decode_eq_word {a : Int64} {w : UInt16} {rest : List UInt8}
    (h : (Line.decode a w rest).isInstruction = false) :
    Line.decode a w rest = ⟨a, [w], .word w⟩ := by
  unfold Line.decode at h ⊢
  split at h
  · rfl
  · split at h
    · rfl
    · cases h

/-- The words that a line was decoded from lie at the front of the image. -/
theorem decode_covers (a : Int64) (low high : UInt8) (rest : List UInt8) {l : Line}
    (hl : l = Line.decode a (wordOfBytes low high) rest) :
    l.size = 2 * l.words.length ∧ 2 ≤ l.size ∧
      low :: high :: rest = wordsToBytes l.words ++ rest.drop (l.size - 2) := by
  have hshows := shows_decode_bytes a low high rest
  rw [← hl] at hshows
  have htrailing := hshows.trailing (by simp)
  have htwo := hshows.two_le_size (by simp)
  have hbytes := hshows.bytes_eq
  obtain ⟨k, hk⟩ := Nat.exists_eq_add_of_le' htwo
  refine ⟨by rw [Line.size, htrailing]; rfl, htwo, ?_⟩
  rw [Line.bytes, htrailing, List.append_nil, hk] at hbytes
  rw [hk]
  exact hbytes

/-- A decoded line, whatever it holds. -/
theorem assembles_lineText {w : UInt16} {rest : List UInt8} {l : Line}
    (hl : l = Line.decode (Int64.ofNat n) w rest) (hn : n + 2 * l.words.length ≤ 0o200000) :
    Assembles noLabels n (l.text ++ "\n") (wordsToBytes l.words) [l] [] := by
  cases hinstr : l.isInstruction with
  | true =>
    have hname : isPrintedName l.mnemonic = true := by
      rw [hl]
      exact isPrintedName_decode _ w rest
    have hshown : List.Forall₂ (Shown noLabels) l.args (l.args.map Arg.text) := by
      rw [List.forall₂_map_right_iff, List.forall₂_same]
      exact fun arg _ => .own arg
    exact assembles_decoded hl hinstr hn hshown (spelled_lineText hname)
  | false =>
    rw [hl] at hinstr
    have hword := decode_eq_word hinstr
    rw [← hl] at hword
    subst hword
    exact assembles_wordLine w hn

end Lines

/-- The text of a sweep, each line with its line end. -/
def sweepText (lines : List Line) : String := String.join (lines.map fun l => l.text ++ "\n")

theorem sweepText_cons (l : Line) (lines : List Line) :
    sweepText (l :: lines) = l.text ++ "\n" ++ sweepText lines := by
  rw [sweepText, List.map_cons, String.join_cons]
  rfl

/-- Every line of a sweep stores the bytes it covers, so the whole sweep stores the image. -/
theorem assembles_sweep {n room : Nat} {code : List UInt8} (hroom : code.length ≤ room)
    (hn : n + code.length ≤ 0o200000) :
    Assembles noLabels n (sweepText (sweep room (Int64.ofNat n) code)) code
      (sweep room (Int64.ofNat n) code) [] := by
  induction room generalizing n code with
  | zero =>
    obtain rfl : code = [] := List.length_eq_zero_iff.mp (by omega)
    exact assembles_nil noLabels n
  | succ room ih =>
    match code with
    | [] => exact assembles_nil noLabels n
    | [b] =>
      have hbyte := assembles_lastByte b hn
      rwa [show sweep (room + 1) (Int64.ofNat n) [b] = [⟨Int64.ofNat n, [], .byte b⟩] from rfl,
        sweepText, List.map_singleton, String.join_cons, String.join_nil, String.append_empty]
    | low :: high :: rest =>
      simp only [List.length_cons] at hroom hn
      rw [sweep]
      generalize hl : Line.decode (Int64.ofNat n) (wordOfBytes low high) rest = l
      obtain ⟨hsize, htwo, hbytes⟩ := decode_covers _ low high rest hl.symm
      have hlength := congrArg List.length hbytes
      rw [List.length_append, length_wordsToBytes, ← hsize] at hlength
      simp only [List.length_cons] at hlength
      have hline := assembles_lineText hl.symm (by omega)
      have htail := @ih (n + l.size) (rest.drop (l.size - 2)) (by omega) (by omega)
      rw [Int64.ofNat_add, hsize, ← length_wordsToBytes, ← Int64.ofNat_add] at htail
      rw [hsize, ← length_wordsToBytes, ← Int64.ofNat_add, sweepText_cons, hbytes, hsize,
        ← length_wordsToBytes]
      exact hline.append htail

section Session

variable {labels : Labels} {n : Nat} {text joined : String} {bytes : List UInt8} {ls : List Line}
  {ds : List (Nat × Label)}

/-- A source at the link address of its session. The last line end may be missing. -/
theorem run_addSource_at (h : Assembles labels n joined bytes ls ds) (hfresh : Fresh ds .empty)
    (htext : text = joined ∨ text ++ "\n" = joined) (fs : FileSystem) :
    ∃ s s', Advances labels n bytes ls ds s s' ∧ s.writes = [] ∧ s.symbols = .empty ∧
      s.link = .int (Int64.ofNat n) ∧
      (Session.addSource fs "input" text).run (Session.new.setLink (Int64.ofNat n)) =
        (.ok (), s') := by
  obtain ⟨lines, rfl, hyields, hrun⟩ := h
  obtain ⟨cs, hcommands, hall⟩ := Source.commands_of_yields hyields "input" htext
  obtain ⟨inc, hadd⟩ := run_addSource_of_commands fs
    (s := Session.new.setLink (Int64.ofNat n)) rfl hcommands
  obtain ⟨s', hs', hsteps⟩ := hrun cs hall fs inc
    (Assembly.enterFile (Path.clean "input") (Session.new.setLink (Int64.ofNat n))) rfl rfl hfresh
  have hrest := hsteps []
  rw [List.append_nil] at hrest
  exact ⟨_, Assembly.leaveFile s', hs'.leaveFile, rfl, rfl, rfl, hadd s' hrest⟩

end Session

theorem fresh_nil : Fresh [] .empty := ⟨List.nodup_nil, fun _ hd => by cases hd⟩

/-- Lines with line ends between them, or behind each of them. -/
def IsSweepText (lines : List Line) (text : String) : Prop :=
  text = "\n".intercalate (lines.map Line.text) ∨ text = sweepText lines

theorem IsSweepText.eq_or_append {lines : List Line} {text : String} (h : IsSweepText lines text) :
    text = sweepText lines ∨ text ++ "\n" = sweepText lines := by
  rcases h with rfl | h
  · by_cases hne : lines = []
    · subst hne
      exact .inl rfl
    · have hjoin := @Text.join_lines_eq (lines.map Line.text) (by simpa using hne)
      rw [List.map_map] at hjoin
      exact .inr hjoin.symm
  · exact .inl h

/-- What the text of a sweep comes to. -/
theorem outcome_sweep {code : List UInt8} {n : Nat} (hn : n + code.length ≤ 0o200000) {text : String}
    (htext : IsSweepText (sweep code.length (Int64.ofNat n) code) text) (fs : FileSystem) :
    ((∀ l ∈ sweep code.length (Int64.ofNat n) code, l.StaysInside) →
      (Session.assemble fs text (Int64.ofNat n)).outcome .new = .ok code) ∧
    (¬ (∀ l ∈ sweep code.length (Int64.ofNat n) code, l.StaysInside) →
      ∃ e, (Session.assemble fs text (Int64.ofNat n)).outcome .new = .error e ∧
        IsRangeReport e) := by
  have hsweep := assembles_sweep (n := n) (Nat.le_refl code.length) hn
  obtain ⟨s, s', hs, hwrites, hsymbols, hlink, hadd⟩ :=
    run_addSource_at hsweep fresh_nil htext.eq_or_append fs
  exact hs.outcome hwrites hsymbols hlink (by omega) (fun a k hk => by cases hk) hadd

/-- The lines of a sweep over an image assemble, at the base of the image, to the image. The only
failure is a value out of range, and it is met just if a branch among the lines leads out of the
address space: its target is printed modulo the address space, and the assembler takes the printed
address as it is. -/
theorem assemble_sweepText (fs : FileSystem) (code : List UInt8) (base : Int64)
    (heven : base.toInt % 2 = 0) (hlow : 0 ≤ base.toInt)
    (hhigh : base.toInt + code.length ≤ 0o200000) :
    ∃ lines, disassemble code base = .ok lines ∧ ∀ text, IsSweepText lines text →
      ((Session.assemble fs text base).outcome .new = .ok code ∨
        ∃ e, (Session.assemble fs text base).outcome .new = .error e ∧
          ∀ c, e.is c = (c == .outOfRange)) ∧
      ((Session.assemble fs text base).outcome .new = .ok code ↔
        ∀ l ∈ lines, l.StaysInside) := by
  obtain ⟨n, hn, rfl⟩ : ∃ n : Nat, n < 2 ^ 63 ∧ base = Int64.ofNat n := by
    refine ⟨base.toInt.toNat, by omega, ?_⟩
    rw [← Int64.toInt_inj, Int64.toInt_ofNat_of_lt (by omega), Int.toNat_of_nonneg hlow]
  rw [Int64.toInt_ofNat_of_lt hn] at heven hhigh
  have hend : n + code.length ≤ 0o200000 := by omega
  refine ⟨sweep code.length (Int64.ofNat n) code, ?_, fun text htext => ?_⟩
  · rw [disassemble, if_pos (isValidBase_ofNat (by omega) hend)]
  · obtain ⟨hinside, houtside⟩ := outcome_sweep hend htext fs
    by_cases hstay : ∀ l ∈ sweep code.length (Int64.ofNat n) code, l.StaysInside
    · exact ⟨.inl (hinside hstay), fun _ => hstay, hinside⟩
    · obtain ⟨e, he, hrange⟩ := houtside hstay
      refine ⟨.inr ⟨e, he, hrange.is_eq⟩, fun hok => ?_, fun h => absurd h hstay⟩
      rw [he] at hok
      cases hok

theorem assemble_sweepText_loop : ∃ lines, disassemble loopImage 0 = .ok lines ∧
    (Session.assemble (⟨[]⟩ : Files.Collection).fileSystem
      ("\n".intercalate (lines.map Line.text)) 0).outcome .new = .ok loopImage := by
  obtain ⟨lines, hlines, htexts⟩ := assemble_sweepText (⟨[]⟩ : Files.Collection).fileSystem
    loopImage 0 (by decide) (by decide) (by decide)
  have hstay : ∀ l ∈ sweep 11 0 loopImage, l.StaysInside := by decide +kernel
  have hsweep : disassemble loopImage 0 = .ok (sweep 11 0 loopImage) := rfl
  rw [hsweep] at hlines
  cases hlines
  exact ⟨_, hsweep, (htexts _ (.inl rfl)).2.mpr hstay⟩

/-- A branch to the word before address zero is printed with the last address, and is then too
far. -/
theorem assemble_wrapped_branch : ∃ lines e, disassemble leavingImage 0 = .ok lines ∧
    "\n".intercalate (lines.map Line.text) = "BR 177776" ∧
    (Session.assemble (⟨[]⟩ : Files.Collection).fileSystem "BR 177776" 0).outcome .new = .error e ∧
    e.is .outOfRange = true := by
  have htext : "\n".intercalate ((sweep 2 0 leavingImage).map Line.text) = "BR 177776" := by
    decide +kernel
  have hleave : ¬ ∀ l ∈ sweep 2 0 leavingImage, l.StaysInside := by decide +kernel
  obtain ⟨e, he, hrange⟩ := (@outcome_sweep leavingImage 0 (by decide) _
    (.inl htext.symm) (⟨[]⟩ : Files.Collection).fileSystem).2 hleave
  exact ⟨_, e, rfl, htext, he, hrange.is_eq .outOfRange⟩

end Eleven.Disassembly

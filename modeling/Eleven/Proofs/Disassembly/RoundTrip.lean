import Eleven.Proofs.Assembly.Linking
import Eleven.Proofs.Disassembly.Coverage
import Eleven.Proofs.Disassembly.Reached

/-! The source text of an image assembles to the image, unless a branch in it leads out of the
address space. -/
namespace Eleven.Disassembly

open Eleven.Assembly (Session stored linkAddress)
open Eleven.Files (FileSystem)

section Symbols

variable {ds : List (Nat × Label)} {t t' : SymbolTable}

theorem Defines.quiet (h : Defines ds t t') (hq : t.Quiet) : t'.Quiet := by
  induction ds generalizing t with
  | nil =>
    cases h
    exact hq
  | cons d ds ih =>
    obtain ⟨pos, u, hu, h⟩ := h
    exact ih h (hq.define hu)

theorem Defines.binding?_of_some (h : Defines ds t t') {name : String} {v : Lazy}
    (hv : t.binding? name = some v) : t'.binding? name = some v := by
  induction ds generalizing t with
  | nil =>
    cases h
    exact hv
  | cons d ds ih =>
    obtain ⟨pos, u, hu, h⟩ := h
    exact ih h (SymbolTable.binding?_define_of_some hu hv)

theorem Defines.binding?_nameOf (h : Defines ds t t') {d : Nat × Label} (hd : d ∈ ds) :
    t'.binding? (nameOf d) = some (.int (Int64.ofNat d.1)) := by
  induction ds generalizing t with
  | nil => cases hd
  | cons d' ds ih =>
    obtain ⟨pos, u, hu, h⟩ := h
    rcases List.mem_cons.mp hd with rfl | hd
    · exact h.binding?_of_some (by rw [SymbolTable.binding?_define hu, if_pos rfl])
    · exact ih h hd

theorem Defines.int_of_mem (h : Defines ds t t') (ht : ∀ y ∈ t.symbols, ∃ n, y.value = .int n) :
    ∀ y ∈ t'.symbols, ∃ n, y.value = .int n := by
  induction ds generalizing t with
  | nil =>
    cases h
    exact ht
  | cons d ds ih =>
    obtain ⟨pos, u, hu, h⟩ := h
    obtain ⟨-, rfl⟩ := SymbolTable.define_eq_ok hu
    refine ih h fun y hy => ?_
    rcases List.mem_append.mp hy with hy | hy
    · exact ht y hy
    · rw [List.mem_singleton.mp hy]
      exact ⟨_, rfl⟩

/-- Labels with their addresses can all be resolved. -/
theorem Defines.settles (h : Defines ds .empty t) :
    ∃ t', SymbolTable.resolveAll.run t = (.ok (), t') ∧ t'.Settled ∧
      ∀ d ∈ ds, t'.results (nameOf d) = .ok (.int (Int64.ofNat d.1)) := by
  have hq := h.quiet SymbolTable.quiet_empty
  have hints : ∀ y ∈ t.symbols, ∃ n, t.binding? y.name = some (.int n) := by
    intro y hy
    obtain ⟨n, hn⟩ := h.int_of_mem (fun y hy => by cases hy) y hy
    exact ⟨n, by rw [SymbolTable.binding?, hq.find?_eq hy, Option.map_some, hn]⟩
  obtain ⟨t', hrun⟩ := SymbolTable.run_resolveEach_ints hq hints
  have hall : SymbolTable.resolveAll.run t = (.ok (), t') := hrun
  obtain ⟨hq', hg, hs⟩ := SymbolTable.settled_of_resolveAll hq hall
  refine ⟨t', hall, hs, fun d hd => SymbolTable.Settled.results_int hq' hs ?_⟩
  rw [SymbolTable.binding?_eq_of_definitions hg.definitions]
  exact h.binding?_nameOf hd

end Symbols

section Session

variable {labels : Labels} {n : Nat} {text : String} {bytes : List UInt8} {ls : List Line}
  {ds : List (Nat × Label)}

/-- A link directive, behind blanks or not. -/
theorem yields_linkLine {margin : List Char} {line : String} (hn : n < 2 ^ 63)
    (hmargin : ∀ c ∈ margin, c = ' ' ∨ c = '\t')
    (hline : line.toList = margin ++ (".LINK " ++ Text.bareOctal (Int64.ofNat n)).toList) :
    Source.Yields line fun c =>
      ∃ pos, c = .single ⟨[], ".LINK", pos⟩ (.link (.int (Int64.ofNat n))) := by
  have hspelled : Source.Spelled line.toList
      [.ident ".LINK", .number (Text.bareOctal (Int64.ofNat n))] := by
    have hoctal := spelled_octal hn Source.breaks_nil .nil
    rw [List.append_nil] at hoctal
    rw [hline, String.toList_append]
    exact spelled_blanks hmargin (isPrintedName_spelled (s := ".LINK") (by decide)
      (Source.breaks_cons rfl _) (.blank (.inl rfl) hoctal))
  refine Source.yields_of_directive (k := .link) hspelled (by simp) (by simp) (by decide) rfl
    (by decide) (by decide) fun ts hts => ?_
  obtain ⟨t, rfl, ht⟩ := List.map_eq_singleton_iff.mp hts
  have hvalue : Source.lazyExpression false [t] = .ok (.int (Int64.ofNat n), []) :=
    Source.lazyExpression_atom (ht ▸ Source.isAtom_number hn) (by simp [Source.StopsExpression])
  rw [Source.arguments, hvalue, ok_bind]

theorem run_inFile (file : String) (act : Attempt Session Unit) (s : Session) :
    (Assembly.inFile file act).run s =
      ((act.run (Assembly.enterFile file s)).1,
        Assembly.leaveFile (act.run (Assembly.enterFile file s)).2) := rfl

/-- A source is run by its commands, inside a file of its own. -/
theorem run_addSource_of_commands (fs : FileSystem) {source : String} {cs : List Source.Command}
    {s : Session} (hfiles : s.files = [])
    (hcommands : Source.Reader.commands "input" source = cs.map .ok) :
    ∃ inc, ∀ s', (Assembly.runSource fs inc (cs.map .ok)).run
        (Assembly.enterFile (Path.clean "input") s) = (.ok (), s') →
      (Session.addSource fs "input" source).run s = (.ok (), Assembly.leaveFile s') := by
  refine ⟨Assembly.includeWith fs (some (Assembly.compile fs 62)), fun s' hrun => ?_⟩
  rw [Session.addSource, Attempt.run_bind_ok (Attempt.run_get _), hfiles]
  change (Assembly.compile fs (62 + 1) "input" _).run _ = _
  rw [Assembly.compile, run_inFile, hcommands, hrun]

theorem Advances.leaveFile {s s' : Session} (h : Advances labels n bytes ls ds s s') :
    Advances labels n bytes ls ds s (Assembly.leaveFile s') :=
  ⟨h.stores, h.counter, h.symbols, h.link, h.koi8r⟩

/-- A source behind a link directive, assembled in a new session. -/
theorem run_addSource {line : String} (h : Assembles labels n text bytes ls ds)
    (hline : Source.Yields line fun c =>
      ∃ pos, c = .single ⟨[], ".LINK", pos⟩ (.link (.int (Int64.ofNat n))))
    (hfresh : Fresh ds .empty) (fs : FileSystem) (start : Int64) :
    ∃ s s', Advances labels n bytes ls ds s s' ∧ s.writes = [] ∧ s.symbols = .empty ∧
      s.link = .int (Int64.ofNat n) ∧
      (Session.addSource fs "input" (line ++ "\n" ++ text)).run (Session.new.setLink start) =
        (.ok (), s') := by
  obtain ⟨lines, rfl, hyields, hrun⟩ := h
  obtain ⟨_, hcommands, hall⟩ := Source.commands_of_yields
    ((List.forall_mem_cons (a := (_, _))).mpr ⟨hline, hyields⟩) "input" (.inl rfl)
  obtain ⟨_, cs, ⟨pos, rfl⟩, htail, rfl⟩ := List.forall₂_cons_left_iff.mp hall
  rw [List.map_cons, String.join_cons] at hcommands
  obtain ⟨inc, hadd⟩ := run_addSource_of_commands fs (s := Session.new.setLink start) rfl
    hcommands
  generalize hopened : Assembly.enterFile (Path.clean "input") (Session.new.setLink start) = opened
    at hadd
  have hlink : (Assembly.run fs inc (.single ⟨[], ".LINK", pos⟩
      (.link (.int (Int64.ofNat n))))).run opened = (.ok .next, { opened with
        pc := .int (Int64.ofNat n)
        link := .int (Int64.ofNat n) }) := by
    subst hopened
    exact run_single rfl rfl rfl
  obtain ⟨s', hs', hsteps⟩ := hrun cs htail fs inc { opened with
    pc := .int (Int64.ofNat n)
    link := .int (Int64.ofNat n) } rfl (hopened ▸ rfl) (hopened ▸ hfresh)
  refine ⟨_, Assembly.leaveFile s', hs'.leaveFile, hopened ▸ rfl, hopened ▸ rfl, rfl, hadd s' ?_⟩
  have hrest := hsteps []
  rw [List.append_nil] at hrest
  rw [List.map_cons, Assembly.runSource, Attempt.run_bind_ok hlink]
  exact hrest

theorem linkAddress_ofNat (hn : n < 2 ^ 63) (env : Env) :
    linkAddress env (.int (Int64.ofNat n)) = .ok (Int64.ofNat n) := by
  have hvalue : (Lazy.int (Int64.ofNat n)).intValue env = .ok (Int64.ofNat n) := rfl
  have hsign : ¬ Int64.ofNat n < 0 := by
    rw [Int64.lt_iff_toInt_lt, Int64.toInt_ofNat_of_lt hn]
    exact Int.not_lt.mpr (Int.natCast_nonneg n)
  rw [linkAddress, hvalue]
  exact if_neg hsign

/-- The image of a source whose symbols have their integers. -/
theorem outcome_assemble {fs : FileSystem} {source : String} {start : Int64} {s : Session}
    {t : SymbolTable}
    (hadd : (Session.addSource fs "input" source).run (Session.new.setLink start) = (.ok (), s))
    (hall : SymbolTable.resolveAll.run s.symbols = (.ok (), t)) (hsettled : t.Settled)
    (hlink : s.link = .int (Int64.ofNat n)) (hn : n < 2 ^ 63) :
    (Session.assemble fs source start).outcome .new = (do
      let memory ← stored t.results #[] s.writes
      .ok (memory.toList.drop n)) := by
  have hset : (modify (Session.setLink start) : Attempt Session Unit).run .new =
      (.ok (), Session.new.setLink start) := rfl
  have haddress : linkAddress t.results s.link = .ok (Int64.ofNat n) := by
    rw [hlink, linkAddress_ofNat hn]
  have hclamp : (Int64.ofNat n).toNatClampNeg = n := toNat_toInt_ofNat hn
  have himage := Assembly.run_linkImage hsettled hall
  rw [haddress] at himage
  rw [Session.assemble, Attempt.outcome, Attempt.run_bind_ok hset, Attempt.run_bind_ok hadd]
  cases hstored : stored t.results #[] s.writes with
  | error e =>
    rw [hstored] at himage
    rw [Attempt.run_bind_error himage]
    rfl
  | ok memory =>
    rw [hstored, ok_bind, ok_bind] at himage
    rw [Attempt.run_bind_ok himage, ok_bind, hclamp]
    rfl

theorem drop_placed (n : Nat) (bytes : List UInt8) : (placed #[] n bytes).toList.drop n = bytes := by
  unfold placed
  split_ifs with hempty
  · rw [hempty]
    exact List.drop_nil
  · have hdrop := Assembly.drop_overwrite #[] n bytes
    rwa [List.drop_nil, List.append_nil] at hdrop

/-- A source that starts without stores and symbols comes to its bytes, or one of its lines leads
out of the address space. -/
theorem Advances.outcome {fs : FileSystem} {source : String} {start : Int64} {s s' : Session}
    (hs : Advances labels n bytes ls ds s s') (hwrites : s.writes = []) (hsymbols : s.symbols = .empty)
    (hlink : s.link = .int (Int64.ofNat n)) (hn : n < 2 ^ 63)
    (hlabels : ∀ a k, labels a = some k → ∃ m, (m, k) ∈ ds ∧ a = Int64.ofNat m)
    (hadd : (Session.addSource fs "input" source).run (Session.new.setLink start) = (.ok (), s')) :
    ((∀ l ∈ ls, l.StaysInside) → (Session.assemble fs source start).outcome .new = .ok bytes) ∧
      (¬ (∀ l ∈ ls, l.StaysInside) →
        ∃ e, (Session.assemble fs source start).outcome .new = .error e ∧ IsRangeReport e) := by
  obtain ⟨t, hall, hsettled, hresults⟩ := Defines.settles (hsymbols ▸ hs.symbols)
  have hprovides : Provides labels t.results := by
    intro a k hk
    obtain ⟨m, hm, rfl⟩ := hlabels a k hk
    exact hresults (m, k) hm
  obtain ⟨new, hnew, hinside, houtside⟩ := hs.stores t.results hprovides
  rw [hwrites, List.nil_append] at hnew
  rw [outcome_assemble hadd hall hsettled (hs.link.trans hlink) hn, hnew]
  constructor
  · intro hstay
    rw [hinside hstay, ok_bind, drop_placed]
  · intro hleave
    obtain ⟨e, he, hrange⟩ := houtside hleave #[]
    rw [he]
    exact ⟨e, rfl, hrange⟩

end Session

theorem IsRangeReport.is_eq {e : Failure} (h : IsRangeReport e) (c : Category) :
    e.is c = (c == .outOfRange) := by
  obtain ⟨d, rfl, hd⟩ := h
  rw [Failure.is, hd]
  cases c <;> rfl

/-- The instructions that the source text of an image shows. -/
def renderedLines (base : Int64) (code : List UInt8) : List Line :=
  codeLines (segmentsOf base code (reachedLines base code))

section Image

variable {code : List UInt8} {n : Nat}

theorem toInt_end (hn : n + code.length < 2 ^ 63) :
    (Int64.ofNat n + Int64.ofNat code.length).toInt = n + code.length := by
  rw [← Int64.ofNat_add, Int64.toInt_ofNat_of_lt hn]
  exact Int.natCast_add n code.length

theorem isValidBase_ofNat (heven : n % 2 = 0) (hn : n + code.length ≤ 0o200000) :
    isValidBase (Int64.ofNat n) code.length = true := by
  have hbase := Int64.toInt_ofNat_of_lt (show n < 2 ^ 63 by omega)
  have hspace : (Machine.addressSpace : Int) = 0o200000 := rfl
  rw [isValidBase_iff, hbase, toInt_end (by omega), hspace]
  omega

theorem segmentsOf_ofNat (hne : code ≠ []) (hn : n + code.length < 2 ^ 63)
    (lines : List (Option Line)) :
    segmentsOf (Int64.ofNat n) code lines = layout 0 (Int64.ofNat n) lines code := by
  refine if_pos ?_
  have hpos : 0 < code.length := List.length_pos_of_ne_nil hne
  rw [Int64.lt_iff_toInt_lt, toInt_end hn, Int64.toInt_ofNat_of_lt (by omega)]
  omega

/-- The text of a nonempty image that lies in the address space. -/
theorem outcome_sourceText (heven : n % 2 = 0) (hne : code ≠ []) (hn : n + code.length ≤ 0o200000)
    (fs : FileSystem) :
    ∃ text, sourceText code (Int64.ofNat n) = .ok text ∧
      ((∀ l ∈ renderedLines (Int64.ofNat n) code, l.StaysInside) →
        (Session.assemble fs text 0).outcome .new = .ok code) ∧
      (¬ (∀ l ∈ renderedLines (Int64.ofNat n) code, l.StaysInside) →
        ∃ e, (Session.assemble fs text 0).outcome .new = .error e ∧ IsRangeReport e) := by
  have htiles : Tiles n (segmentsOf (Int64.ofNat n) code (reachedLines (Int64.ofNat n) code))
      code := by
    rw [segmentsOf_ofNat hne (by omega)]
    exact tiles_layout (marked_reachedLines n code) (by omega)
  have hline : ("\t.LINK " ++ Text.bareOctal (Int64.ofNat n)).toList =
      ['\t'] ++ (".LINK " ++ Text.bareOctal (Int64.ofNat n)).toList := by
    rw [String.toList_append, String.toList_append]
    rfl
  obtain ⟨s, s', hs, hwrites, hsymbols, hlink, hadd⟩ := run_addSource (assembles_tiles htiles hn)
    (yields_linkLine (by omega) (by simp) hline) (fresh_segmentLabels htiles hn) fs 0
  rw [sourceText, if_pos (isValidBase_ofNat heven hn), if_neg (by simpa using hne)]
  refine ⟨_, rfl, hs.outcome hwrites hsymbols hlink (by omega) (fun a k hk => ?_) hadd⟩
  have hshows : (segmentsOf (Int64.ofNat n) code (reachedLines (Int64.ofNat n) code)).any
      (Segment.shows a) = true := by
    by_contra hhidden
    rw [visibleLabels, if_neg hhidden] at hk
    cases hk
  exact mem_segmentLabels htiles hn hshows hk

theorem outcome_assemble_empty (fs : FileSystem) :
    (Session.assemble fs "" 0).outcome .new = .ok [] := by
  have hadd : (Session.addSource fs "input" "").run (Session.new.setLink 0) =
      (.ok (), Session.new.setLink 0) := rfl
  have hall : SymbolTable.resolveAll.run SymbolTable.empty = (.ok (), .empty) := rfl
  exact outcome_assemble (n := 0) hadd hall (fun y hy => by cases hy) rfl (by decide)

end Image

/-- The source text of an image assembles to the image. The only failure is a value out of range,
and it is met just if the text shows a branch that leads out of the address space. -/
theorem assemble_sourceText (fs : FileSystem) (code : List UInt8) (base : Int64)
    (heven : base.toInt % 2 = 0) (hlow : 0 ≤ base.toInt)
    (hhigh : base.toInt + code.length ≤ 0o200000) :
    ∃ text, sourceText code base = .ok text ∧
      ((Session.assemble fs text 0).outcome .new = .ok code ∨
        ∃ e, (Session.assemble fs text 0).outcome .new = .error e ∧
          ∀ c, e.is c = (c == .outOfRange)) ∧
      ((Session.assemble fs text 0).outcome .new = .ok code ↔
        ∀ l ∈ renderedLines base code, l.StaysInside) := by
  obtain ⟨n, hn, rfl⟩ : ∃ n : Nat, n < 2 ^ 63 ∧ base = Int64.ofNat n := by
    refine ⟨base.toInt.toNat, by omega, ?_⟩
    rw [← Int64.toInt_inj, Int64.toInt_ofNat_of_lt (by omega), Int.toNat_of_nonneg hlow]
  rw [Int64.toInt_ofNat_of_lt hn] at heven hhigh
  have heven : n % 2 = 0 := by omega
  have hend : n + code.length ≤ 0o200000 := by omega
  by_cases hne : code = []
  · subst hne
    have hempty := outcome_assemble_empty fs
    have hlines : renderedLines (Int64.ofNat n) [] = [] := by
      rw [renderedLines, segmentsOf, if_neg]
      · rfl
      · simp
    refine ⟨"", ?_, .inl hempty, fun _ => by simp [hlines], fun _ => hempty⟩
    rw [sourceText, if_pos (isValidBase_ofNat heven hend)]
    rfl
  · obtain ⟨text, htext, hinside, houtside⟩ := outcome_sourceText heven hne hend fs
    refine ⟨text, htext, ?_⟩
    by_cases hstay : ∀ l ∈ renderedLines (Int64.ofNat n) code, l.StaysInside
    · exact ⟨.inl (hinside hstay), fun _ => hstay, hinside⟩
    · obtain ⟨e, he, hrange⟩ := houtside hstay
      refine ⟨.inr ⟨e, he, hrange.is_eq⟩, fun hok => ?_, fun h => absurd h hstay⟩
      rw [he] at hok
      cases hok

/-- A load and a branch back to it, with a text behind them that has a quote and a backslash. -/
def loopImage : List UInt8 :=
  [0xC0, 0x15, 0x02, 0x00, 0xFD, 0x01, 0x22, 0x5C, 0x41, 0x42, 0x00]

/-- A branch to the word before address zero. -/
def leavingImage : List UInt8 := [0xFE, 0x01]

theorem assemble_sourceText_branches :
    (∃ text, sourceText loopImage 0 = .ok text ∧
      (Session.assemble (⟨[]⟩ : Files.Collection).fileSystem text 0).outcome .new =
        .ok loopImage) ∧
    ∃ text e, sourceText leavingImage 0 = .ok text ∧
      (Session.assemble (⟨[]⟩ : Files.Collection).fileSystem text 0).outcome .new = .error e ∧
      e.is .outOfRange = true := by
  have hstay : ∀ l ∈ renderedLines 0 loopImage, l.StaysInside := by decide +kernel
  have hleave : ¬ ∀ l ∈ renderedLines 0 leavingImage, l.StaysInside := by decide +kernel
  obtain ⟨text, htext, -, hiff⟩ := assemble_sourceText (⟨[]⟩ : Files.Collection).fileSystem
    loopImage 0 (by decide) (by decide) (by decide)
  obtain ⟨text', htext', hcases, hiff'⟩ := assemble_sourceText
    (⟨[]⟩ : Files.Collection).fileSystem leavingImage 0 (by decide) (by decide) (by decide)
  refine ⟨⟨text, htext, hiff.mpr hstay⟩, ?_⟩
  obtain hok | ⟨e, he, hrange⟩ := hcases
  · exact absurd (hiff'.mp hok) hleave
  · exact ⟨text', e, htext', he, hrange .outOfRange⟩

end Eleven.Disassembly

import Eleven.Proofs.Disassembly.RoundTrip
import Eleven.Proofs.Lazy.Solution
import Mathlib.Algebra.Group.Nat.Defs

/-! Bytes written as directives assemble to the bytes, and the labels among them become symbols with
their addresses. -/
namespace Eleven.Disassembly

open Eleven.Assembly (Session stored linkAddress)
open Eleven.Files (FileSystem)

section Symbols

variable {ds : List (Nat × Label)} {t t' : SymbolTable}

theorem Defines.names (h : Defines ds t t') : t'.names = t.names ++ ds.map nameOf := by
  induction ds generalizing t with
  | nil =>
    cases h
    exact (List.append_nil _).symm
  | cons d ds ih =>
    obtain ⟨pos, u, hu, h⟩ := h
    obtain ⟨-, rfl⟩ := SymbolTable.define_eq_ok hu
    rw [ih h, SymbolTable.names_push, List.append_assoc]
    rfl

/-- A table of labels, once it is resolved, holds each label with its address and nothing else. -/
theorem Defines.values (h : Defines ds .empty t)
    (hall : SymbolTable.resolveAll.run t = (.ok (), t')) :
    t'.values.map Prod.fst = ds.map nameOf ∧
      ∀ name value, (name, value) ∈ t'.values ↔
        ∃ d ∈ ds, name = nameOf d ∧ value = Int64.ofNat d.1 := by
  obtain ⟨hq, hgrows, hsettled⟩ :=
    SymbolTable.settled_of_resolveAll (h.quiet SymbolTable.quiet_empty) hall
  obtain ⟨_, hrun, -, hresults⟩ := h.settles
  cases hall.symm.trans hrun
  have hnames : t'.values.map Prod.fst = ds.map nameOf := by
    rw [hsettled.names_values, hgrows.names, h.names]
    rfl
  refine ⟨hnames, fun name value => ?_⟩
  rw [hq.mem_values]
  constructor
  · intro hresult
    have hmem : name ∈ ds.map nameOf := by
      rw [← hnames]
      exact List.mem_map_of_mem (hq.mem_values.mpr hresult)
    obtain ⟨d, hd, rfl⟩ := List.mem_map.mp hmem
    rw [hresults d hd] at hresult
    cases hresult
    exact ⟨d, hd, rfl, rfl⟩
  · rintro ⟨d, hd, rfl, rfl⟩
    exact hresults d hd

end Symbols

section Image

variable {labels shown : Labels} {n : Nat} {text : String} {bytes : List UInt8}
  {ds : List (Nat × Label)}

/-- The image of a source that starts without stores and symbols. -/
theorem Advances.run_linkImage {s s' : Session} (hs : Advances labels n bytes [] ds s s')
    (hwrites : s.writes = []) (hsymbols : s.symbols = .empty)
    (hlink : s.link = .int (Int64.ofNat n)) (hn : n < 2 ^ 63)
    (hlabels : ∀ a, labels a = none) :
    ∃ t, SymbolTable.resolveAll.run s'.symbols = (.ok (), t) ∧
      Session.linkImage.run s' =
        (.ok ⟨s'.build, bytes, Int64.ofNat n, t.values⟩, s'.setSymbols t) := by
  obtain ⟨t, hall, hsettled, -⟩ := Defines.settles (hsymbols ▸ hs.symbols)
  have hprovides : Provides labels t.results := by
    intro a k hk
    rw [hlabels] at hk
    cases hk
  obtain ⟨new, hnew, hstores, -⟩ := hs.stores t.results hprovides
  rw [hwrites, List.nil_append] at hnew
  have hclamp : (Int64.ofNat n).toNatClampNeg = n := toNat_toInt_ofNat hn
  refine ⟨t, hall, ?_⟩
  rw [Assembly.run_linkImage hsettled hall, hnew, hstores (by simp), ok_bind, hs.link, hlink,
    linkAddress_ofNat hn, ok_bind, hclamp, drop_placed]

theorem fresh_labelsIn (shown : Labels) {count : Nat} (hn : n + count ≤ 2 ^ 63) :
    Fresh (labelsIn shown n count) .empty :=
  ⟨nodup_labelsIn shown hn, fun _ _ => rfl⟩

/-- The labels among addresses, said of the addresses themselves. -/
theorem exists_mem_labelsIn {count : Nat} (hn : n + count ≤ 2 ^ 63) {name : String}
    {value : Int64} :
    (∃ d ∈ labelsIn shown n count, name = nameOf d ∧ value = Int64.ofNat d.1) ↔
      ((n : Int) ≤ value.toInt ∧ value.toInt < n + count) ∧
        ∃ k, shown value = some k ∧ name = labelName value k := by
  constructor
  · rintro ⟨⟨m, k⟩, hd, rfl, rfl⟩
    obtain ⟨hlow, hhigh, hk⟩ := mem_labelsIn.mp hd
    simp only at hlow hhigh
    rw [Int64.toInt_ofNat_of_lt (by omega)]
    exact ⟨⟨by omega, by omega⟩, k, hk, rfl⟩
  · rintro ⟨⟨hlow, hhigh⟩, k, hk, rfl⟩
    have hvalue : value = Int64.ofNat value.toInt.toNat :=
      (Machine.ofNat_toNat_toInt (by omega)).symm
    refine ⟨(value.toInt.toNat, k), mem_labelsIn.mpr ⟨by omega, by omega, ?_⟩, ?_, hvalue⟩
    · rw [← hvalue]
      exact hk
    · rw [nameOf, ← hvalue]

end Image

/-- Bytes behind a link directive assemble to themselves at the address of the directive. Of the
labels, those among the bytes are defined, each once and with its address. -/
theorem linkImage_dataText (fs : FileSystem) (data : List UInt8) (address start : Int64)
    (labels : Labels) (margin : String) (hmargin : ∀ c ∈ margin.toList, c = ' ' ∨ c = '\t')
    (hlow : 0 ≤ address.toInt) (hhigh : address.toInt + data.length ≤ 0o200000) :
    ∃ s image s',
      (Session.addSource fs "input"
        (margin ++ (".LINK " ++ Text.bareOctal address) ++ "\n" ++
          dataText data address labels)).run (Session.new.setLink start) = (.ok (), s) ∧
      Session.linkImage.run s = (.ok image, s') ∧
      image.link = address ∧ image.data = data ∧
      (image.symbols.map Prod.fst).Nodup ∧
      ∀ name value, (name, value) ∈ image.symbols ↔
        (address.toInt ≤ value.toInt ∧ value.toInt < address.toInt + data.length) ∧
          ∃ k, labels value = some k ∧ name = labelName value k := by
  obtain ⟨n, hn, rfl⟩ : ∃ n : Nat, n < 2 ^ 63 ∧ address = Int64.ofNat n :=
    ⟨address.toInt.toNat, by omega, (Machine.ofNat_toNat_toInt hlow).symm⟩
  rw [Int64.toInt_ofNat_of_lt hn] at hhigh ⊢
  -- The text of data names no label, so its stores need no label to have a value.
  have htext : Assembles (fun _ => none) n (dataText data (Int64.ofNat n) labels) data []
      (labelsIn labels n data.length) := assembles_dataText (by omega)
  have hfresh : Fresh (labelsIn labels n data.length) .empty := fresh_labelsIn labels (by omega)
  obtain ⟨s, s', hs, hwrites, hsymbols, hlink, hadd⟩ := run_addSource htext
    (yields_linkLine hn hmargin (String.toList_append ..)) hfresh fs start
  obtain ⟨t, hall, himage⟩ := hs.run_linkImage hwrites hsymbols hlink hn fun _ => rfl
  obtain ⟨hnames, hvalues⟩ := Defines.values (hsymbols ▸ hs.symbols) hall
  refine ⟨s', _, _, hadd, himage, rfl, rfl, ?_, fun name value => ?_⟩
  · rw [hnames]
    exact hfresh.distinct
  · rw [hvalues, exists_mem_labelsIn (by omega)]

/-- Two bytes, a text with quotes in it, and a byte. -/
def quotedData : List UInt8 :=
  [1, 2, 0x53, 0x61, 0x79, 0x20, 0x22, 0x68, 0x69, 0x22, 0, 3]

/-- A label before the text of the data at address 8, and one behind the data. -/
def quotedLabels : Labels := fun a =>
  if a = 10 then some .place else if a = 20 then some .subroutine else none

theorem linkImage_dataText_quoted :
    ∃ s image s',
      (Session.addSource (⟨[]⟩ : Files.Collection).fileSystem "input"
        ("\t" ++ (".LINK " ++ Text.bareOctal 8) ++ "\n" ++
          dataText quotedData 8 quotedLabels)).run (Session.new.setLink 0) = (.ok (), s) ∧
      Session.linkImage.run s = (.ok image, s') ∧ image.link = 8 ∧ image.data = quotedData ∧
      ∀ name value, (name, value) ∈ image.symbols ↔ name = "LOC000012" ∧ value = 10 := by
  have hmargin : ∀ c ∈ "\t".toList, c = ' ' ∨ c = '\t' :=
    List.forall_mem_singleton.mpr (.inr rfl)
  obtain ⟨s, image, s', hadd, himage, hlink, hdata, -, hsymbols⟩ :=
    linkImage_dataText (⟨[]⟩ : Files.Collection).fileSystem quotedData 8 0 quotedLabels "\t"
      hmargin (by decide) (by decide)
  refine ⟨s, image, s', hadd, himage, hlink, hdata, fun name value => ?_⟩
  rw [hsymbols]
  constructor
  · rintro ⟨⟨-, hhigh⟩, k, hk, rfl⟩
    unfold quotedLabels at hk
    split_ifs at hk with hfirst hbehind
    · cases hk
      subst hfirst
      exact ⟨by decide, rfl⟩
    · subst hbehind
      exact absurd hhigh (by decide)
  · rintro ⟨rfl, rfl⟩
    exact ⟨by decide, .place, by decide, by decide⟩

example : dataText quotedData 8 quotedLabels =
    "\t.BYTE  1, 2\nLOC000012:\n\t.ASCIZ \"Say \\\"hi\\\"\"\n\t.BYTE  3\n" := by decide +kernel

end Eleven.Disassembly

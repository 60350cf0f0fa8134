import Eleven.Proofs.Disassembly.Fragment
import Eleven.Proofs.Disassembly.InstructionLine

/-! The lines of which disassembled source is made: bytes, texts, labels and instructions. -/
namespace Eleven.Disassembly

open Eleven.Assembly (Session Includer Flow stored)
open Eleven.Files (FileSystem)
open Eleven.Machine (Instruction unsignedWord wordsToBytes)
open Eleven.Source (Command Header Lexeme Operation Spelled Breaks breaks_nil breaks_cons)

theorem toNat_toInt_ofNat {n : Nat} (hn : n < 2 ^ 63) : (Int64.ofNat n).toInt.toNat = n := by
  rw [Int64.toInt_ofNat_of_lt hn]
  omega

theorem run_single {fs : FileSystem} {inc : Includer} {h : Header} {o : Operation}
    {s m s' : Session}
    (ho : Assembly.run fs inc (.single h o) = (do
      Assembly.defineLabels h.position h.labels
      Attempt.update (Assembly.apply fs h o)
      pure .next))
    (hlabels : (Assembly.defineLabels h.position h.labels).run s = (.ok (), m))
    (happly : Assembly.apply fs h o m = .ok s') :
    (Assembly.run fs inc (.single h o)).run s = (.ok .next, s') := by
  have hupdate := Attempt.run_update_eq_ok.mpr happly
  rw [ho, Attempt.run_bind_ok hlabels, Attempt.run_bind_ok hupdate]
  rfl

theorem run_defineLabel {name : String} {pos : Position} {s s' : Session}
    (h : s.define name s.pc pos = .ok s') :
    (Assembly.defineLabels pos [name]).run s = (.ok (), s') := by
  have hupdate : (Attempt.update fun s : Session => s.define name s.pc pos).run s = (.ok (), s') :=
    Attempt.run_update_eq_ok.mpr h
  rw [Assembly.defineLabels, Attempt.run_bind_ok hupdate]
  rfl

theorem storedByte_ofNat (pos : Position) (b : UInt8) :
    Session.storedByte pos (Int64.ofNat b.toNat) = .ok (Int64.ofNat b.toNat) := by
  have hb := b.toNat_lt
  have hint : (Int64.ofNat b.toNat).toInt = b.toNat := Int64.toInt_ofNat_of_lt (by omega)
  have hbig : ¬ Int64.ofNat b.toNat ≥ 256 := by
    rw [ge_iff_le, Int64.le_iff_toInt_le, hint]
    change ¬ 256 ≤ (b.toNat : Int)
    omega
  have hsmall : ¬ Int64.ofNat b.toNat < -256 := by
    rw [Int64.lt_iff_toInt_lt, hint]
    change ¬ (b.toNat : Int) < -256
    omega
  have hneg : ¬ Int64.ofNat b.toNat < 0 := by
    rw [Int64.lt_iff_toInt_lt, hint]
    change ¬ (b.toNat : Int) < 0
    omega
  rw [Session.storedByte, if_neg hbig, if_neg hsmall, if_neg hneg]

section Bytes

variable {labels : Labels} {n : Nat} {s : Session}

/-- One byte. -/
theorem advances_writeByte (hs : s.pc = .int (Int64.ofNat n)) (hn : n < 0o200000) (b : UInt8)
    (pos : Position) :
    Advances labels n [b] [] [] s (s.writeByte (.int (Int64.ofNat b.toNat)) pos) where
  stores env _ := by
    have hvalue : ((Lazy.int (Int64.ofNat b.toNat)).mapInt (Session.storedByte pos)).value env =
        .ok (.int (Int64.ofNat b.toNat)) := by
      rw [Lazy.value_mapInt, Lazy.intValue_int, ok_bind, storedByte_ofNat, ok_bind]
    have hpc : s.pc.intValue env = .ok (Int64.ofNat n) := by rw [hs, Lazy.intValue_int]
    have hint : (Int64.ofNat n).toInt = n := Int64.toInt_ofNat_of_lt (by omega)
    refine ⟨[⟨s.pc, (Lazy.int (Int64.ofNat b.toNat)).mapInt (Session.storedByte pos), pos⟩],
      by simp [Session.writes, Session.writeByte], fun _ memory => ?_, fun h => absurd (by simp) h⟩
    rw [Assembly.stored_byte hpc hvalue (Assembly.isByte_ofNat b) (by omega) (by omega) memory,
      Assembly.byteOf_ofNat, hint]
    rfl
  counter := by
    change s.pc.addInt 1 = _
    rw [hs, List.length_singleton, Int64.ofNat_add]
    rfl
  symbols := rfl
  link := rfl
  koi8r := rfl

theorem advances_writeBytes (hs : s.pc = .int (Int64.ofNat n)) {bs : List UInt8}
    (hn : n + bs.length ≤ 0o200000) (pos : Position) :
    Advances labels n bs [] [] s
      (s.writeBytes (bs.map fun b => .int (Int64.ofNat b.toNat)) pos) := by
  induction bs generalizing n s with
  | nil => exact .refl hs
  | cons b bs ih =>
    rw [List.length_cons] at hn
    have hfirst := @advances_writeByte labels n s hs (by omega) b pos
    exact hfirst.trans (ih hfirst.counter (by rw [List.length_singleton]; omega))

theorem spelled_byte (b : UInt8) {cs : List Char} {ls : List Lexeme} (hcs : Breaks cs)
    (hls : Spelled cs ls) :
    Spelled ((Text.bareOctal (Int64.ofNat b.toNat)).toList ++ cs)
      (.number (Text.bareOctal (Int64.ofNat b.toNat)) :: ls) :=
  spelled_octal (Nat.lt_of_lt_of_le b.toNat_lt (by decide)) hcs hls

/-- The lexeme of a byte. -/
def byteLexeme (b : UInt8) : Lexeme := .number (Text.bareOctal (Int64.ofNat b.toNat))

theorem spelled_bytes (b : UInt8) (bs : List UInt8) :
    Spelled (", ".intercalate
        ((b :: bs).map fun b => Text.bareOctal (Int64.ofNat b.toNat))).toList
      (((b :: bs).map byteLexeme).intersperse (.punct ',')) := by
  induction bs generalizing b with
  | nil => simpa [byteLexeme] using spelled_byte b breaks_nil .nil
  | cons b' bs ih =>
    have hrest := Spelled.punct (c := ',') rfl (.blank (c := ' ') (.inl rfl) (ih b'))
    simpa [byteLexeme] using spelled_byte b (breaks_cons rfl _) hrest

theorem length_le_intersperse (sep : Lexeme) (ls : List Lexeme) :
    ls.length ≤ (ls.intersperse sep).length := by
  induction ls with
  | nil => exact Nat.le_refl _
  | cons l ls ih =>
    cases ls with
    | nil => exact Nat.le_refl _
    | cons l' ls =>
      simp only [List.intersperse_cons_cons, List.length_cons] at ih ⊢
      omega

theorem yields_byteLine (b : UInt8) (bs : List UInt8) :
    Source.Yields ("\t.BYTE  " ++ ", ".intercalate
        ((b :: bs).map fun b => Text.bareOctal (Int64.ofNat b.toNat))) fun c =>
      ∃ pos, c = .single ⟨[], ".BYTE", pos⟩
        (.bytes ((b :: bs).map fun b => .int (Int64.ofNat b.toNat))) := by
  have hline : Spelled ("\t.BYTE  " ++ ", ".intercalate
      ((b :: bs).map fun b => Text.bareOctal (Int64.ofNat b.toNat))).toList
      (.ident ".BYTE" :: ((b :: bs).map byteLexeme).intersperse (.punct ',')) := by
    rw [String.toList_append]
    exact .blank (.inr rfl) (isPrintedName_spelled (s := ".BYTE") (by decide) (breaks_cons rfl _)
      (.blank (.inl rfl) (.blank (.inl rfl) (spelled_bytes b bs))))
  have hhead : (((b :: bs).map byteLexeme).intersperse (.punct ',')).head? =
      some (byteLexeme b) := by
    cases bs <;> rfl
  have hatoms : List.Forall₂ Source.IsAtom ((b :: bs).map byteLexeme)
      ((b :: bs).map fun b => .int (Int64.ofNat b.toNat)) := by
    rw [List.forall₂_map_left_iff, List.forall₂_map_right_iff, List.forall₂_same]
    exact fun x _ => Source.isAtom_number (Nat.lt_of_lt_of_le x.toNat_lt (by decide))
  refine Source.yields_of_directive (k := .bytes) hline (by rw [hhead]; simp [byteLexeme])
    (by rw [hhead]; simp [byteLexeme]) (by decide) rfl (by decide) (by decide) fun ts hts => ?_
  have hlength : ((b :: bs).map byteLexeme).length ≤ ts.length + 1 := by
    have h := length_le_intersperse (.punct ',') ((b :: bs).map byteLexeme)
    rw [← hts] at h
    simp only [List.length_map] at h ⊢
    omega
  rw [Source.arguments, Source.expressionList_atoms hatoms (by simp) hts _ hlength, ok_bind]

theorem assembles_byteLine {bs : List UInt8} (hne : bs ≠ []) (hn : n + bs.length ≤ 0o200000) :
    Assembles labels n (byteLine bs) bs [] [] := by
  obtain ⟨b, bs, rfl⟩ := List.exists_cons_of_ne_nil hne
  refine assembles_line (yields_byteLine b bs) ?_
  rintro _ ⟨pos, rfl⟩ fs inc s hs _ _
  exact ⟨_, advances_writeBytes hs hn pos, run_single rfl rfl rfl⟩

/-- Bytes on lines of their own. -/
theorem assembles_byteLines (room : Nat) {bs : List UInt8} (hroom : bs.length ≤ room)
    (hn : n + bs.length ≤ 0o200000) : Assembles labels n (byteLines room bs) bs [] [] := by
  induction room generalizing n bs with
  | zero =>
    obtain rfl : bs = [] := List.length_eq_zero_iff.mp (by omega)
    exact assembles_nil labels n
  | succ room ih =>
    cases bs with
    | nil => exact assembles_nil labels n
    | cons b bs =>
      have hcut := List.take_append_drop bytesPerLine (b :: bs)
      have hlength := congrArg List.length hcut
      rw [List.length_append] at hlength
      have hfirst : ((b :: bs).take bytesPerLine).length ≠ 0 := by
        rw [List.length_take]
        simp [bytesPerLine]
      have hline := @assembles_byteLine labels n ((b :: bs).take bytesPerLine)
        (by rintro h; exact hfirst (by rw [h]; rfl)) (by omega)
      have hrest := @ih (n + ((b :: bs).take bytesPerLine).length) ((b :: bs).drop bytesPerLine)
        (by rw [List.length_cons] at hlength hroom; omega) (by omega)
      have hall := hline.append hrest
      rwa [hcut] at hall

theorem assembles_bytesText {bs : List UInt8} (hn : n + bs.length ≤ 0o200000) :
    Assembles labels n (bytesText bs) bs [] [] :=
  assembles_byteLines bs.length (Nat.le_refl _) hn

end Bytes

section Texts

variable {labels : Labels} {n : Nat} {s : Session}

/-- A list of bytes in one store. -/
theorem advances_writeList (hs : s.pc = .int (Int64.ofNat n)) {bs : List UInt8} (hne : bs ≠ [])
    (hn : n + bs.length ≤ 0o200000) (pos : Position) :
    Advances labels n bs [] [] s
      (s.writeList (.list (bs.map fun b => Int64.ofNat b.toNat)) pos) where
  stores env _ := by
    have hint : (Int64.ofNat n).toInt = n := Int64.toInt_ofNat_of_lt (by omega)
    have hbytes : ∀ b ∈ bs.map fun b => Int64.ofNat b.toNat, Assembly.IsByte b := by
      intro x hx
      obtain ⟨b, -, rfl⟩ := List.mem_map.mp hx
      exact Assembly.isByte_ofNat b
    have hback : (bs.map fun b => Int64.ofNat b.toNat).map Assembly.byteOf = bs := by
      rw [List.map_map]
      exact List.map_id'' Assembly.byteOf_ofNat bs
    refine ⟨[⟨s.pc, .list (bs.map fun b => Int64.ofNat b.toNat), pos⟩],
      by simp [Session.writes, Session.writeList], fun _ memory => ?_, fun h => absurd (by simp) h⟩
    have hres : Assembly.Write.resolved env ⟨s.pc, .list (bs.map fun b => Int64.ofNat b.toNat), pos⟩ =
        .ok (bs.map fun b => Int64.ofNat b.toNat, Int64.ofNat n) := by
      rw [Assembly.Write.resolved, hs]
      rfl
    have hstore : Assembly.store pos memory (Int64.ofNat n) (bs.map fun b => Int64.ofNat b.toNat) =
        .ok (Assembly.overwrite memory n bs) := by
      rw [Assembly.store_of_fits pos hbytes memory (by omega) (by rw [List.length_map]; omega),
        hback, toNat_toInt_ofNat (by omega)]
    rw [stored, hres, ok_bind]
    dsimp only
    rw [hstore, ok_bind, placed, if_neg hne]
    rfl
  counter := by
    change s.pc.add (Lazy.list (bs.map fun b => Int64.ofNat b.toNat)).length = _
    rw [hs, Int64.ofNat_add]
    change Lazy.int (Int64.ofNat n + Int64.ofNat (bs.map fun b => Int64.ofNat b.toNat).length) = _
    rw [List.length_map]
  symbols := rfl
  link := rfl
  koi8r := rfl

/-- The character of a byte. -/
def byteChar (b : UInt8) : Char := Char.ofNat b.toNat

theorem toNat_byteChar (b : UInt8) : (byteChar b).toNat = b.toNat := by
  have hvalid : b.toNat.isValidChar := .inl (Nat.lt_trans b.toNat_lt (by decide))
  rw [byteChar, Char.ofNat, dif_pos hvalid]
  rfl

theorem latinBytes_byteChar (bs : List UInt8) :
    Assembly.latinBytes (bs.map byteChar) = .ok (bs.map fun b => Int64.ofNat b.toNat) := by
  induction bs with
  | nil => rfl
  | cons b bs ih =>
    have hb := b.toNat_lt
    rw [List.map_cons, Assembly.latinBytes, toNat_byteChar, if_neg (by omega), ih, ok_bind]
    rfl

theorem byteChar_inner {b : UInt8} (hb : isPrintableByte b = true) : Text.IsInner (byteChar b) := by
  have h : ∀ n < 0x7F, 0x20 ≤ n → Char.ofNat n ≠ '\n' ∧ Char.ofNat n ≠ '\r' := by decide
  simp only [isPrintableByte, Bool.and_eq_true, decide_eq_true_eq] at hb
  exact h b.toNat (by omega) hb.1

/-- A byte is written as its character, behind a backslash where it needs one. -/
theorem escapeByte_cases (b : UInt8) :
    (escapeByte b = [Text.backslash, byteChar b] ∧ Source.unescape (byteChar b) = byteChar b) ∨
      (escapeByte b = [byteChar b] ∧ byteChar b ≠ Text.doubleQuote ∧
        byteChar b ≠ Text.backslash) := by
  by_cases hmark : byteChar b = Text.backslash ∨ byteChar b = Text.doubleQuote
  · refine .inl ⟨if_pos (by simpa [byteChar] using hmark), ?_⟩
    rcases hmark with h | h
    · rw [h]
      rfl
    · rw [h]
      rfl
  · rw [not_or] at hmark
    exact .inr ⟨if_neg (by simpa [byteChar] using hmark), hmark.2, hmark.1⟩

theorem scanText_escaped (bs : List UInt8) :
    ∃ used, Source.scanText Text.doubleQuote (bs.flatMap escapeByte ++ [Text.doubleQuote]) =
      some (bs.map byteChar, used, []) := by
  induction bs with
  | nil => exact ⟨1, rfl⟩
  | cons b bs ih =>
    obtain ⟨used, ih⟩ := ih
    rcases escapeByte_cases b with ⟨hescape, hchar⟩ | ⟨hescape, hquote, hslash⟩
    · refine ⟨used + 2, ?_⟩
      rw [List.flatMap_cons, hescape, List.append_assoc, List.cons_append, List.singleton_append]
      unfold Source.scanText
      rw [if_neg (by decide), if_pos rfl]
      dsimp only
      rw [ih, hchar]
      rfl
    · refine ⟨used + 1, ?_⟩
      rw [List.flatMap_cons, hescape, List.append_assoc, List.singleton_append]
      unfold Source.scanText
      rw [if_neg hquote, if_neg hslash, ih]
      rfl

theorem escaped_inner {bs : List UInt8} (hbs : ∀ b ∈ bs, isPrintableByte b = true) :
    ∀ c ∈ bs.flatMap escapeByte ++ [Text.doubleQuote], Text.IsInner c := by
  intro c hc
  have hmark : Text.IsInner Text.backslash ∧ Text.IsInner Text.doubleQuote := by
    unfold Text.IsInner
    decide
  rcases List.mem_append.mp hc with hc | hc
  · obtain ⟨b, hb, hc⟩ := List.mem_flatMap.mp hc
    rcases escapeByte_cases b with ⟨hescape, -⟩ | ⟨hescape, -⟩
    · rw [hescape] at hc
      rcases List.mem_cons.mp hc with rfl | hc
      · exact hmark.1
      · cases List.mem_singleton.mp hc
        exact byteChar_inner (hbs b hb)
    · rw [hescape] at hc
      cases List.mem_singleton.mp hc
      exact byteChar_inner (hbs b hb)
  · cases List.mem_singleton.mp hc
    exact hmark.2

theorem yields_textLine {bs : List UInt8} (hbs : ∀ b ∈ bs, isPrintableByte b = true) :
    Source.Yields ("\t.ASCIZ " ++ String.ofList (Text.doubleQuote ::
        (bs.flatMap escapeByte ++ [Text.doubleQuote]))) fun c =>
      ∃ pos, c = .single ⟨[], ".ASCIZ", pos⟩ (.asciz (String.ofList (bs.map byteChar))) := by
  obtain ⟨used, hscan⟩ := scanText_escaped bs
  have hline : Spelled ("\t.ASCIZ " ++ String.ofList (Text.doubleQuote ::
      (bs.flatMap escapeByte ++ [Text.doubleQuote]))).toList
      [.ident ".ASCIZ", .text (String.ofList (bs.map byteChar))] := by
    rw [String.toList_append, String.toList_ofList (l := Text.doubleQuote :: _)]
    exact .blank (.inr rfl) (isPrintedName_spelled (s := ".ASCIZ") (by decide) (breaks_cons rfl _)
      (.blank (.inl rfl) (.text hscan (escaped_inner hbs) .nil)))
  refine Source.yields_of_directive (k := .asciz) hline (by simp) (by simp) (by decide) rfl
    (by decide) (by decide) fun ts hts => ?_
  obtain ⟨t, rfl, ht⟩ := List.map_eq_singleton_iff.mp hts
  rw [Source.arguments, Source.expectText, ht]
  rfl

/-- A text and the zero behind it. -/
theorem assembles_textLine {bs : List UInt8} (hbs : ∀ b ∈ bs, isPrintableByte b = true)
    (hn : n + (bs ++ [0]).length ≤ 0o200000) :
    Assembles labels n (textLine bs) (bs ++ [0]) [] [] := by
  refine assembles_line (yields_textLine hbs) ?_
  rintro _ ⟨pos, rfl⟩ fs inc s hs hkoi _
  refine ⟨_, advances_writeList hs (by simp) hn pos, run_single rfl rfl ?_⟩
  have htext : Assembly.textBytes s.koi8r (String.ofList (bs.map byteChar)) =
      .ok (bs.map fun b => Int64.ofNat b.toNat) := by
    rw [hkoi, Assembly.textBytes, if_neg (by decide), String.toList_ofList, latinBytes_byteChar]
  change Assembly.writeText s pos (String.ofList (bs.map byteChar)) [0] = _
  rw [Assembly.writeText, htext, List.map_append]
  rfl

/-- A run is never cut before its first byte. -/
theorem run_nonempty (b : UInt8) (bs : List UInt8) :
    0 < ((b :: bs).takeWhile fun b => !isPrintableByte b).length +
      (((b :: bs).dropWhile fun b => !isPrintableByte b).takeWhile isPrintableByte).length := by
  cases hb : isPrintableByte b with
  | false =>
    rw [List.takeWhile_cons_of_pos (by simp [hb]), List.length_cons]
    omega
  | true =>
    rw [List.dropWhile_cons_of_neg (by simp [hb]), List.takeWhile_cons_of_pos hb, List.length_cons]
    omega

/-- Bytes between two labels. -/
theorem assembles_runLines (room : Nat) {bs : List UInt8} (hroom : bs.length ≤ room)
    (hn : n + bs.length ≤ 0o200000) : Assembles labels n (runLines room bs) bs [] [] := by
  induction room generalizing n bs with
  | zero =>
    obtain rfl : bs = [] := List.length_eq_zero_iff.mp (by omega)
    exact assembles_nil labels n
  | succ room ih =>
    cases bs with
    | nil => exact assembles_nil labels n
    | cons b bs =>
      have hsplit := List.takeWhile_append_dropWhile (p := fun b => !isPrintableByte b) (l := b :: bs)
      have hsplit' := List.takeWhile_append_dropWhile (p := isPrintableByte)
        (l := (b :: bs).dropWhile fun b => !isPrintableByte b)
      have htext : ∀ x ∈ ((b :: bs).dropWhile fun b => !isPrintableByte b).takeWhile isPrintableByte,
          isPrintableByte x = true := List.all_eq_true.mp List.all_takeWhile
      have hsome := run_nonempty b bs
      rw [runLines]
      generalize (b :: bs).takeWhile (fun b => !isPrintableByte b) = front at hsplit hsome ⊢
      generalize (b :: bs).dropWhile (fun b => !isPrintableByte b) = rest at hsplit hsplit' htext hsome ⊢
      generalize rest.takeWhile isPrintableByte = text at hsplit' htext hsome ⊢
      have hlength := congrArg List.length hsplit
      have hlength' := congrArg List.length hsplit'
      rw [List.length_append] at hlength hlength'
      split
      · rename_i htail
        rw [htail, List.append_nil] at hsplit'
        rw [hsplit', hsplit]
        exact assembles_bytesText hn
      · rename_i z after htail
        rw [htail] at hsplit' hlength'
        rw [List.length_cons] at hlength'
        split_ifs with hz
        · obtain ⟨rfl, -⟩ : z = 0 ∧ text.length ≥ minTextLength := by simpa using hz
          have hfirst := @assembles_bytesText labels n front (by omega)
          have hsecond := @assembles_textLine labels (n + front.length) text htext
            (by simp only [List.length_append, List.length_singleton]; omega)
          have hthird := @ih (n + (front ++ (text ++ [0])).length) after (by omega)
            (by simp only [List.length_append, List.length_singleton]; omega)
          have hall := (hfirst.append hsecond).append hthird
          rwa [List.append_assoc, List.append_assoc, List.singleton_append, hsplit', hsplit] at hall
        · have hfirst := @assembles_bytesText labels n (front ++ text)
            (by rw [List.length_append]; omega)
          have hsecond := @ih (n + (front ++ text).length) (z :: after)
            (by rw [List.length_cons]; omega)
            (by rw [List.length_append, List.length_cons]; omega)
          have hall := hfirst.append hsecond
          rwa [List.append_assoc, hsplit', hsplit] at hall

theorem assembles_runText {bs : List UInt8} (hn : n + bs.length ≤ 0o200000) :
    Assembles labels n (runText bs) bs [] [] :=
  assembles_runLines bs.length (Nat.le_refl _) hn

end Texts

section Labels

variable {labels : Labels} {n : Nat}

/-- The label at an address, if it has one. -/
def labelsAt (labels : Labels) (n : Nat) : List (Nat × Label) :=
  (labels (Int64.ofNat n)).toList.map fun k => (n, k)

theorem yields_labelLine (hn : n < 2 ^ 63) (k : Label) :
    Source.Yields (labelName (Int64.ofNat n) k ++ ":") fun c =>
      ∃ pos, c = .single ⟨[labelName (Int64.ofNat n) k], "", pos⟩ .nothing := by
  obtain ⟨hprinted, hdotted, hreg⟩ := label_name hn k
  have hline : Spelled (labelName (Int64.ofNat n) k ++ ":").toList
      [.ident (labelName (Int64.ofNat n) k), .punct ':'] := by
    rw [String.toList_append]
    exact isPrintedName_spelled hprinted (breaks_cons rfl _) (.punct rfl .nil)
  have hyields := Source.yields_label hline hdotted hreg
  rwa [isPrintedName_upper hprinted] at hyields

/-- The line of a label stores nothing, so it does not matter which labels have their values. -/
theorem assembles_labelLine {shown : Labels} (hn : n < 2 ^ 63) :
    Assembles labels n (labelLine shown (Int64.ofNat n)) [] [] (labelsAt shown n) := by
  unfold labelLine labelsAt
  cases shown (Int64.ofNat n) with
  | none => exact assembles_nil labels n
  | some k =>
    change Assembles labels n (labelName (Int64.ofNat n) k ++ ":\n") [] [] [(n, k)]
    rw [show labelName (Int64.ofNat n) k ++ ":\n" = labelName (Int64.ofNat n) k ++ ":" ++ "\n" by
      rw [String.append_assoc]; rfl]
    refine assembles_line (yields_labelLine hn k) ?_
    rintro _ ⟨pos, rfl⟩ fs inc s hs _ hfresh
    have hdefine : s.symbols.define (labelName (Int64.ofNat n) k) s.pc pos =
        .ok (s.symbols.push ⟨labelName (Int64.ofNat n) k, s.pc, pos, .pending⟩) := by
      have hfind : s.symbols.find? (labelName (Int64.ofNat n) k) = none :=
        hfresh.undefined (n, k) (by simp)
      rw [SymbolTable.define, SymbolTable.has, hfind]
      rfl
    refine ⟨s.setSymbols (s.symbols.push ⟨labelName (Int64.ofNat n) k, s.pc, pos, .pending⟩),
      ⟨fun _ _ => ⟨[], (List.append_nil _).symm, fun _ _ => rfl, fun h => absurd (by simp) h⟩, hs,
        ⟨pos, _, hs ▸ hdefine, rfl⟩, rfl, rfl⟩, ?_⟩
    exact run_single rfl (run_defineLabel (by rw [Session.define, hdefine, ok_bind])) rfl

end Labels

section Instructions

variable {labels : Labels} {n : Nat} {s : Session}

theorem pc_writeWords (hs : s.pc = .int (Int64.ofNat n)) (vs : List Lazy) (pos : Position) :
    (s.writeWords vs pos).pc = .int (Int64.ofNat (n + 2 * vs.length)) := by
  induction vs generalizing n s with
  | nil => exact hs
  | cons v vs ih =>
    have hnext : (s.writeWord v pos).pc = .int (Int64.ofNat (n + 2)) := by
      change s.pc.addInt 2 = _
      rw [hs, Int64.ofNat_add]
      rfl
    have h := ih hnext
    rwa [Nat.add_assoc, Nat.add_comm 2, ← Nat.mul_succ] at h

theorem others_writeWords (s : Session) (vs : List Lazy) (pos : Position) :
    (s.writeWords vs pos).symbols = s.symbols ∧ (s.writeWords vs pos).link = s.link ∧
      (s.writeWords vs pos).koi8r = s.koi8r := by
  induction vs generalizing s with
  | nil => exact ⟨rfl, rfl, rfl⟩
  | cons v vs ih => exact ih (s.writeWord v pos)

theorem length_wordsToBytes (ws : List UInt16) : (wordsToBytes ws).length = 2 * ws.length := by
  induction ws with
  | nil => rfl
  | cons w ws ih =>
    rw [wordsToBytes, List.flatMap_cons, List.length_append, List.length_cons, Nat.mul_succ,
      Nat.add_comm]
    exact congrArg (· + 2) ih

theorem IsRangeReport.annotate {e : Failure} (h : IsRangeReport e) (pos : Position) :
    IsRangeReport (e.annotate pos) := by
  obtain ⟨d, rfl, hd⟩ := h
  unfold Failure.annotate
  dsimp only [Failure.diagnostic?]
  split_ifs
  · exact ⟨_, rfl, hd⟩
  · exact ⟨d, rfl, hd⟩

/-- Words that have their values. -/
theorem advances_writeWords {words : List Lazy} {pos : Position} {ws : List UInt16} {ls : List Line}
    (hs : s.pc = .int (Int64.ofNat n)) (hlength : words.length = ws.length) (hne : ws ≠ [])
    (hn : n + 2 * ws.length ≤ 0o200000) (hls : ∀ l ∈ ls, l.StaysInside)
    (hws : ∀ env, Provides labels env → Assembly.storedWords env pos words = .ok ws) :
    Advances labels n (wordsToBytes ws) ls [] s (s.writeWords words pos) := by
  have hint : (Int64.ofNat n).toInt = n := Int64.toInt_ofNat_of_lt (by omega)
  have hbytes : wordsToBytes ws ≠ [] := by
    intro h
    have hzero := length_wordsToBytes ws
    rw [h, List.length_nil] at hzero
    exact hne (List.length_eq_zero_iff.mp (by omega))
  obtain ⟨v, vs, rfl⟩ : ∃ v vs, words = v :: vs := by
    cases words with
    | nil => exact absurd (List.length_eq_zero_iff.mp hlength.symm) hne
    | cons v vs => exact ⟨v, vs, rfl⟩
  have hemits : ∀ env, Provides labels env →
      Assembly.Emits env (Int64.ofNat n) (wordsToBytes ws) s (s.writeWords (v :: vs) pos) :=
    fun env henv => Assembly.emits_writeWords (hws env henv) (by rw [hs, Lazy.intValue_int])
      (by omega) (by omega)
  refine ⟨fun env henv => ?_, ?_, ?_, ?_, ?_⟩
  · obtain ⟨new, hnew, hstored⟩ := (hemits env henv).stores
    refine ⟨new, hnew, fun _ memory => ?_, fun hout => absurd hls hout⟩
    rw [hstored, toNat_toInt_ofNat (by omega), placed, if_neg hbytes]
  · rw [pc_writeWords hs, hlength, length_wordsToBytes]
  · exact (others_writeWords s _ pos).1
  · exact (others_writeWords s _ pos).2.1
  · exact (others_writeWords s _ pos).2.2

/-- A word that has no value. -/
theorem advances_writeWord_far {first : Lazy} {pos : Position} {w : UInt16} {ls : List Line}
    (hs : s.pc = .int (Int64.ofNat n)) (hls : ¬ ∀ l ∈ ls, l.StaysInside)
    (hfirst : ∀ env, Provides labels env →
      ∃ e, first.intValue env = .error e ∧ IsRangeReport e) :
    Advances labels n (wordsToBytes [w]) ls [] s (s.writeWords [first] pos) where
  stores env henv := by
    obtain ⟨e, he, hrange⟩ := hfirst env henv
    refine ⟨[⟨s.pc, (first.mapInt (Session.storedWord pos)).mapInt Session.lowByte, pos⟩,
      ⟨s.pc.addInt 1, (first.mapInt (Session.storedWord pos)).mapInt Session.highByte, pos⟩],
      by simp [Session.writes, Session.writeWords, Session.writeWord], fun hin => absurd hin hls,
      fun _ memory => ⟨e.annotate pos, ?_, hrange.annotate pos⟩⟩
    have hvalue : ((first.mapInt (Session.storedWord pos)).mapInt Session.lowByte).value env =
        .error e := by
      rw [Lazy.value_mapInt, Lazy.intValue_mapInt, he]
      rfl
    rw [stored, Assembly.Write.resolved, hvalue]
    rfl
  counter := pc_writeWords hs [first] pos
  symbols := rfl
  link := rfl
  koi8r := rfl

/-- An instruction as it was decoded. -/
theorem advances_instruction {i : Instruction} {w : UInt16} {xs : List UInt16} {args : List Arg}
    {os : List Source.Operand} (hi : i ∈ Instruction.table)
    (hos : Reassembles labels i (Int64.ofNat n) w xs os) (hs : s.pc = .int (Int64.ofNat n))
    (hn : n + 2 * (w :: xs).length ≤ 0o200000) (fs : FileSystem) (pos : Position) :
    ∃ s', Advances labels n (wordsToBytes (w :: xs))
        [⟨Int64.ofNat n, w :: xs, .instruction i args⟩] [] s s' ∧
      Assembly.apply fs ⟨[], i.name, pos⟩ (.instruction os) s = .ok s' := by
  obtain ⟨-, -, hname⟩ := instruction_names i hi
  have happly : ∀ {words}, Assembly.encode i os s.pc pos = .ok words →
      Assembly.apply fs ⟨[], i.name, pos⟩ (.instruction os) s = .ok (s.writeWords words pos) := by
    intro words hwords
    change Assembly.writeInstruction s ⟨[], i.name, pos⟩ os = _
    rw [Assembly.writeInstruction, hname]
    dsimp only
    rw [hwords, ok_bind]
  by_cases hinside : StaysInside i.kind (Int64.ofNat n) w
  · obtain ⟨words, hwords, hlength, hws⟩ := hos.inside hinside pos
    exact ⟨_, advances_writeWords hs hlength (by simp) hn (List.forall_mem_singleton.mpr hinside) hws,
      happly (hs ▸ hwords)⟩
  · obtain ⟨rfl, hfar⟩ := hos.outside hinside
    obtain ⟨first, hwords, hfirst⟩ := hfar pos
    exact ⟨_, advances_writeWord_far hs (fun h => hinside (h _ (List.mem_singleton_self _))) hfirst,
      happly (hs ▸ hwords)⟩

/-- Decoding at an address gives an instruction if control flow can reach it there. -/
theorem decode_eq_instruction {a : Int64} {w : UInt16} {rest : List UInt8}
    (h : (Line.decode a w rest).isInstruction = true) :
    ∃ i args c, Instruction.ofWord? w = some i ∧
      decodeArgs i w ⟨a + 2, rest, [w]⟩ = some (args, c) ∧
      Line.decode a w rest = ⟨a, c.taken.reverse, .instruction i args⟩ := by
  unfold Line.decode at h ⊢
  split at h
  · cases h
  · rename_i i hi
    split at h
    · cases h
    · rename_i args c hargs
      exact ⟨i, args, c, hi, hargs, rfl⟩

theorem isPrintedName_decode (a : Int64) (w : UInt16) (rest : List UInt8) :
    isPrintedName (Line.decode a w rest).mnemonic = true := by
  have hdata : isPrintedName ".WORD" = true := by decide
  unfold Line.decode
  split
  · exact hdata
  · rename_i i hi
    obtain ⟨hmem, -⟩ := Instruction.ofWord?_eq_some hi
    split
    · exact hdata
    · exact (instruction_names i hmem).1

/-- A line that shows a decoded instruction, with labels or without. -/
theorem assembles_decoded {w : UInt16} {rest : List UInt8} {l : Line}
    (hl : l = Line.decode (Int64.ofNat n) w rest) (hinstr : l.isInstruction = true)
    (hn : n + 2 * l.words.length ≤ 0o200000) {ss : List String}
    (hss : List.Forall₂ (Shown labels) l.args ss) {line : String}
    (hspelled : ∀ {ls}, Spelled (", ".intercalate ss).toList ls →
      Spelled line.toList (.ident l.mnemonic :: ls)) :
    Assembles labels n (line ++ "\n") (wordsToBytes l.words) [l] [] := by
  rw [hl] at hinstr
  obtain ⟨i, args, c, hi, hargs, hline⟩ := decode_eq_instruction hinstr
  have hint : (Int64.ofNat n).toInt = n := Int64.toInt_ofNat_of_lt (by omega)
  obtain ⟨xs, hdecoded⟩ := @decoded_args labels i (Int64.ofNat n) w rest args c hi (by omega) hargs
  have hwords : c.taken.reverse = w :: xs := by
    rw [hdecoded.took.taken, List.reverse_append, List.reverse_reverse]
    rfl
  rw [hwords] at hline
  rw [hline] at hl
  subst hl
  have hprinted := hdecoded.printed (by rw [hint]; simp at hn; omega) hss
  obtain ⟨hmem, -⟩ := Instruction.ofWord?_eq_some hi
  refine assembles_line (yields_of_printed hmem hprinted hspelled) ?_
  rintro _ ⟨pos, os, rfl, hos⟩ fs inc s hs _ _
  obtain ⟨s', hs', happly⟩ := advances_instruction hmem hos hs hn fs pos
  exact ⟨s', hs', run_single rfl rfl happly⟩

/-- An instruction at its place, with the label of that place. -/
theorem assembles_codeText {w : UInt16} {rest : List UInt8} {l : Line}
    (hl : l = Line.decode (Int64.ofNat n) w rest) (hinstr : l.isInstruction = true)
    (hn : n + 2 * l.words.length ≤ 0o200000) :
    Assembles labels n (codeText labels l) (wordsToBytes l.words) [l] (labelsAt labels n) := by
  have hname : isPrintedName l.mnemonic = true := by
    rw [hl]
    exact isPrintedName_decode _ w rest
  have haddress : l.address = Int64.ofNat n := by
    rw [hl] at hinstr ⊢
    obtain ⟨_, _, _, _, _, hline⟩ := decode_eq_instruction hinstr
    rw [hline]
  have hlabel := @assembles_labelLine labels n labels (by omega)
  have hcode := assembles_decoded hl hinstr hn (shown_labelledArgs labels l.args)
    (spelled_instructionLine hname)
  have hall := hlabel.append hcode
  rw [List.append_nil] at hall
  rw [codeText_eq, haddress]
  exact hall

end Instructions

end Eleven.Disassembly

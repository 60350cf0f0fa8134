import Eleven.Proofs.Failure.Outcome
import Eleven.Proofs.Text.Lines
import Eleven.Proofs.Text.Octal

/-! Lines that are spelled as a sequence of lexemes are cut into these lexemes. -/
namespace Eleven.Source

/-- What follows neither goes on with a name nor with a number. -/
def Breaks (cs : List Char) : Prop := ∀ c ∈ cs.head?, isNameChar c = false ∧ c ≠ '.'

theorem breaks_nil : Breaks [] := by
  intro c hc
  cases hc

theorem breaks_cons {c : Char} (hc : (!isNameChar c && c != '.') = true) (cs : List Char) :
    Breaks (c :: cs) := by
  intro x hx
  cases hx
  simpa using hc

/-- The characters, all on one line, spell the lexemes. -/
inductive Spelled : List Char → List Lexeme → Prop
  | nil : Spelled [] []
  | blank {c : Char} {cs : List Char} {ls : List Lexeme} (hc : c = ' ' ∨ c = '\t') :
    Spelled cs ls → Spelled (c :: cs) ls
  | punct {c : Char} {cs : List Char} {ls : List Lexeme} (hc : isPunctuation c = true) :
    Spelled cs ls → Spelled (c :: cs) (.punct c :: ls)
  | ident {c : Char} {tail cs : List Char} {ls : List Lexeme}
    (hc : startsName c (tail ++ cs) = true) (htail : ∀ x ∈ tail, isNameChar x = true)
    (hcs : Breaks cs) :
    Spelled cs ls → Spelled (c :: (tail ++ cs)) (.ident (String.ofList (c :: tail)) :: ls)
  | number {c : Char} {tail cs : List Char} {ls : List Lexeme} (hc : Text.IsOctal c)
    (htail : ∀ x ∈ tail, isNameChar x = true) (hcs : Breaks cs) :
    Spelled cs ls → Spelled (c :: (tail ++ cs)) (.number (String.ofList (c :: tail)) :: ls)
  | text {body value cs : List Char} {used : Nat} {ls : List Lexeme}
    (hbody : scanText Text.doubleQuote body = some (value, used, cs))
    (hinner : ∀ c ∈ body, Text.IsInner c) :
    Spelled cs ls → Spelled (Text.doubleQuote :: body) (.text (String.ofList value) :: ls)

section Characters

theorem of_ascii {p : Char → Bool} (h : ∀ n < 128, p (Char.ofNat n) = true) {c : Char}
    (hc : c.toNat < 128) : p c = true := by
  have := h c.toNat hc
  rwa [Char.ofNat_toNat] at this

theorem toNat_lt_of_isNameStart {c : Char} (h : isNameStart c = true) : c.toNat < 128 := by
  have halpha : c.isAlpha = (decide (65 ≤ c.val ∧ c.val ≤ 90) || (97 ≤ c.val && c.val ≤ 122)) := rfl
  simp only [isNameStart, halpha, Bool.or_eq_true, decide_eq_true_eq, Bool.and_eq_true,
    UInt32.le_iff_toNat_le] at h
  rcases h with (rfl | rfl) | ⟨-, h⟩ | ⟨-, h⟩
  · decide
  · decide
  · exact Nat.lt_of_le_of_lt h (by decide)
  · exact Nat.lt_of_le_of_lt h (by decide)

/-- Neither the start of a comment nor of a text, and no blank. -/
def isOrdinary (c : Char) : Bool :=
  c ≠ ';' && !Text.isBlank c && c ≠ Text.doubleQuote && c ≠ Text.singleQuote

theorem startsName_ordinary {c : Char} {rest : List Char} (h : startsName c rest = true) :
    isOrdinary c = true ∧ Text.isDigit c = false := by
  rw [startsName, Bool.or_eq_true, Bool.and_eq_true, decide_eq_true_eq] at h
  rcases h with h | ⟨rfl, -⟩
  · have hall := of_ascii (p := fun c => !isNameStart c || (isOrdinary c && !Text.isDigit c))
      (by decide) (toNat_lt_of_isNameStart h)
    simpa [h] using hall
  · decide

theorem isPunctuation_ordinary {c : Char} (h : isPunctuation c = true) (rest : List Char) :
    isOrdinary c = true ∧ Text.isDigit c = false ∧ startsName c rest = false := by
  have hmem : c ∈ [',', ':', '=', '(', ')', '+', '-', '*', '/', '#', '@', '\x7b', '\x7d'] := by
    simpa [isPunctuation] using h
  have hall : [',', ':', '=', '(', ')', '+', '-', '*', '/', '#', '@', '\x7b', '\x7d'].all
      (fun c => isOrdinary c && !Text.isDigit c && !isNameStart c && c != '.') = true := by
    decide
  have hc := List.all_eq_true.mp hall c hmem
  simp only [Bool.and_eq_true, Bool.not_eq_true', bne_iff_ne] at hc
  obtain ⟨⟨⟨hord, hdigit⟩, hname⟩, hdot⟩ := hc
  exact ⟨hord, hdigit, by simp [startsName, hname, hdot]⟩

theorem isOctal_ordinary {c : Char} (h : Text.IsOctal c) : isOrdinary c = true := by
  obtain ⟨d, hd, rfl⟩ := h
  revert d
  decide

end Characters

theorem takeWhile_append_of_head? {tail cs : List Char}
    (htail : ∀ x ∈ tail, isNameChar x = true) (hcs : ∀ x ∈ cs.head?, isNameChar x = false) :
    (tail ++ cs).takeWhile isNameChar = tail ∧ (tail ++ cs).dropWhile isNameChar = cs := by
  rw [List.takeWhile_append_of_pos htail, List.dropWhile_append_of_pos htail]
  cases cs with
  | nil => simp
  | cons c cs =>
    have hc : isNameChar c = false := hcs c rfl
    simp [hc]

theorem takeWhile_append_of_breaks {tail cs : List Char}
    (htail : ∀ x ∈ tail, isNameChar x = true) (hcs : Breaks cs) :
    (tail ++ cs).takeWhile isNameChar = tail ∧ (tail ++ cs).dropWhile isNameChar = cs :=
  takeWhile_append_of_head? htail fun x hx => (hcs x hx).1

theorem numberTail_of_breaks {tail cs : List Char} (htail : ∀ x ∈ tail, isNameChar x = true)
    (hcs : Breaks cs) : numberTail (tail ++ cs) = tail := by
  obtain ⟨htake, hdrop⟩ := takeWhile_append_of_breaks htail hcs
  unfold numberTail
  rw [htake, hdrop]
  split
  · exact absurd rfl (hcs '.' rfl).2
  · rfl

/-- A text ends with the quote that opened it. -/
theorem scanText_split {quote : Char} {cs value rest : List Char} {used : Nat}
    (h : scanText quote cs = some (value, used, rest)) :
    ∃ body, cs = body ++ quote :: rest ∧ used = body.length + 1 := by
  fun_induction scanText quote cs generalizing value used with
  | case1 => cases h
  | case2 =>
    cases h
    exact ⟨[], rfl, rfl⟩
  | case3 => cases h
  | case4 d after _ ih =>
    obtain ⟨⟨value, used, rest⟩, hr, h⟩ := Option.map_eq_some_iff.mp h
    cases h
    obtain ⟨body, rfl, rfl⟩ := ih hr
    exact ⟨Text.backslash :: d :: body, rfl, rfl⟩
  | case5 c after _ _ ih =>
    obtain ⟨⟨value, used, rest⟩, hr, h⟩ := Option.map_eq_some_iff.mp h
    cases h
    obtain ⟨body, rfl, rfl⟩ := ih hr
    exact ⟨c :: body, rfl, rfl⟩

theorem scanText_length {quote : Char} {body value rest : List Char} {used : Nat}
    (h : scanText quote body = some (value, used, rest)) : rest.length < body.length := by
  obtain ⟨inner, rfl, -⟩ := scanText_split h
  simp only [List.length_append, List.length_cons]
  omega

section Scanning

variable {room column : Nat} {c : Char} {rest : List Char}

theorem scan_nil (room column : Nat) : scan room column [] = .ok [] := by
  cases room <;> rfl

theorem scan_blank (hc : c = ' ' ∨ c = '\t') :
    scan (room + 1) column (c :: rest) = scan room (column + 1) rest := by
  have hblank : c ≠ ';' ∧ Text.isBlank c = true := by rcases hc with rfl | rfl <;> decide
  exact (if_neg hblank.1).trans (if_pos hblank.2)

theorem scan_ordinary (hc : isOrdinary c = true) :
    scan (room + 1) column (c :: rest) =
      (if Text.isDigit c then do
        let tail := numberTail rest
        let ts ← scan room (column + 1 + tail.length) (rest.drop tail.length)
        .ok (⟨.number (String.ofList (c :: tail)), column⟩ :: ts)
      else if startsName c rest then do
        let tail := rest.takeWhile isNameChar
        let ts ← scan room (column + 1 + tail.length) (rest.drop tail.length)
        .ok (⟨.ident (String.ofList (c :: tail)), column⟩ :: ts)
      else if isPunctuation c then do
        let ts ← scan room (column + 1) rest
        .ok (⟨.punct c, column⟩ :: ts)
      else .error (.unexpectedChar column c)) := by
  simp only [isOrdinary, Bool.and_eq_true, decide_eq_true_eq, Bool.not_eq_true', ne_eq] at hc
  obtain ⟨⟨⟨hsemi, hblank⟩, hdouble⟩, hsingle⟩ := hc
  refine (if_neg hsemi).trans ((if_neg ?_).trans (if_neg ?_))
  · simp [hblank]
  · simp [hdouble, hsingle]

/-- A line is cut into the lexemes it spells. -/
theorem scan_of_spelled {cs : List Char} {ls : List Lexeme} (h : Spelled cs ls)
    (hroom : cs.length ≤ room) :
    ∃ ts, scan room column cs = .ok ts ∧ ts.map (·.lexeme) = ls := by
  induction h generalizing room column with
  | nil => exact ⟨[], scan_nil room column, rfl⟩
  | @blank c cs ls hc _ ih =>
    obtain ⟨room, rfl⟩ : ∃ r, room = r + 1 := ⟨room - 1, by simp at hroom; omega⟩
    obtain ⟨ts, hts, hls⟩ := @ih room (column + 1) (by simpa using hroom)
    exact ⟨ts, by rw [scan_blank hc, hts], hls⟩
  | @punct c cs ls hc _ ih =>
    obtain ⟨room, rfl⟩ : ∃ r, room = r + 1 := ⟨room - 1, by simp at hroom; omega⟩
    obtain ⟨ts, hts, hls⟩ := @ih room (column + 1) (by simpa using hroom)
    obtain ⟨hord, hdigit, hname⟩ := isPunctuation_ordinary hc cs
    refine ⟨⟨.punct c, column⟩ :: ts, ?_, by simp [hls]⟩
    rw [scan_ordinary hord, if_neg (by simp [hdigit]), if_neg (by simp [hname]), if_pos hc, hts]
    rfl
  | @ident c tail cs ls hc htail hcs _ ih =>
    obtain ⟨room, rfl⟩ : ∃ r, room = r + 1 := ⟨room - 1, by simp at hroom; omega⟩
    obtain ⟨ts, hts, hls⟩ := @ih room (column + 1 + tail.length) (by simp at hroom; omega)
    obtain ⟨hord, hdigit⟩ := startsName_ordinary hc
    refine ⟨⟨.ident (String.ofList (c :: tail)), column⟩ :: ts, ?_, by simp [hls]⟩
    rw [scan_ordinary hord, if_neg (by simp [hdigit]), if_pos hc]
    simp only [(takeWhile_append_of_breaks htail hcs).1, List.drop_left, hts, ok_bind]
  | @number c tail cs ls hc htail hcs _ ih =>
    obtain ⟨room, rfl⟩ : ∃ r, room = r + 1 := ⟨room - 1, by simp at hroom; omega⟩
    obtain ⟨ts, hts, hls⟩ := @ih room (column + 1 + tail.length) (by simp at hroom; omega)
    refine ⟨⟨.number (String.ofList (c :: tail)), column⟩ :: ts, ?_, by simp [hls]⟩
    rw [scan_ordinary (isOctal_ordinary hc), if_pos hc.isDigit]
    simp only [numberTail_of_breaks htail hcs, List.drop_left, hts, ok_bind]
  | @text body value cs used ls hbody _ _ ih =>
    obtain ⟨room, rfl⟩ : ∃ r, room = r + 1 := ⟨room - 1, by simp at hroom; omega⟩
    have hlen := scanText_length hbody
    obtain ⟨ts, hts, hls⟩ := @ih room (column + 1 + used) (by simp at hroom; omega)
    refine ⟨⟨.text (String.ofList value), column⟩ :: ts, ?_, by simp [hls]⟩
    rw [scan, if_neg (by decide), if_neg (by decide), if_pos (by decide), hbody]
    dsimp only
    rw [hts, ok_bind]

theorem isNameChar_inner {c : Char} (h : isNameChar c = true) : Text.IsInner c := by
  constructor <;> (rintro rfl; revert h; decide)

theorem Spelled.inner {cs : List Char} {ls : List Lexeme} (h : Spelled cs ls) :
    ∀ c ∈ cs, Text.IsInner c := by
  induction h with
  | nil => simp
  | blank hc _ ih =>
    refine List.forall_mem_cons.mpr ⟨?_, ih⟩
    rcases hc with rfl | rfl <;> exact ⟨by decide, by decide⟩
  | punct hc _ ih =>
    refine List.forall_mem_cons.mpr ⟨?_, ih⟩
    constructor <;> (rintro rfl; revert hc; decide)
  | ident hc htail _ _ ih =>
    refine List.forall_mem_cons.mpr ⟨?_, List.forall_mem_append.mpr ⟨?_, ih⟩⟩
    · have hord := (startsName_ordinary hc).1
      constructor <;> (rintro rfl; revert hord; decide)
    · exact fun c hmem => isNameChar_inner (htail c hmem)
  | number hc htail _ _ ih =>
    refine List.forall_mem_cons.mpr ⟨isNameChar_inner hc.isNameChar,
      List.forall_mem_append.mpr ⟨fun c hmem => isNameChar_inner (htail c hmem), ih⟩⟩
  | text _ hinner _ _ => exact List.forall_mem_cons.mpr ⟨⟨by decide, by decide⟩, hinner⟩

theorem tokenize_of_spelled {line : String} {ls : List Lexeme} (h : Spelled line.toList ls) :
    ∃ ts, tokenize line = .ok ts ∧ ts.map (·.lexeme) = ls :=
  scan_of_spelled h (Nat.le_refl _)

end Scanning

end Eleven.Source

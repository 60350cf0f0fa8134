import Eleven.Proofs.Source.Cutting
import Mathlib.Data.List.TakeWhile

/-! How the tokens of a line lie in it. Cutting a line succeeds exactly if the line is made of lexemes,
each as long as it can be, with blanks before them and a comment after them, so nothing but blanks and
the comment is lost. Writing the lexemes with single blanks between them gives a line of the same
lexemes. -/
namespace Eleven.Source

/-- The characters of a lexeme, in front of `rest`. A name or a number ends where it cannot go on. -/
inductive Lexed : List Char → Lexeme → List Char → Prop
  | ident {first : Char} {tail rest : List Char} (hfirst : startsName first tail = true)
    (htail : ∀ x ∈ tail, isNameChar x = true) (hrest : ∀ x ∈ rest.head?, isNameChar x = false) :
    Lexed (first :: tail) (.ident (String.ofList (first :: tail))) rest
  | number {first : Char} {tail rest : List Char} (hfirst : Text.isDigit first = true)
    (htail : ∀ x ∈ tail, isNameChar x = true) (hrest : Breaks rest) :
    Lexed (first :: tail) (.number (String.ofList (first :: tail))) rest
  | dotted {first : Char} {tail rest : List Char} (hfirst : Text.isDigit first = true)
    (htail : ∀ x ∈ tail, isNameChar x = true) :
    Lexed (first :: (tail ++ ['.'])) (.number (String.ofList (first :: (tail ++ ['.'])))) rest
  | text {quote : Char} {body value rest : List Char} {used : Nat}
    (hquote : quote = Text.doubleQuote ∨ quote = Text.singleQuote)
    (hbody : scanText quote body = some (value, used, [])) :
    Lexed (quote :: body) (.text (String.ofList value)) rest
  | punct {c : Char} {rest : List Char} (hc : isPunctuation c = true) : Lexed [c] (.punct c) rest

/-- The characters, the first of which stands at `column`, are tokens with blanks before each of them
and, at the end, blanks and then nothing or a comment. -/
inductive Laid : Nat → List Char → List Token → Prop
  | done {column : Nat} (gap : List Char) {rest : List Char}
    (hgap : ∀ c ∈ gap, Text.isBlank c = true) (hrest : ∀ c ∈ rest.head?, c = ';') : Laid column (gap ++ rest) []
  | token {column : Nat} (gap : List Char) {w rest : List Char} {t : Token} {ts : List Token}
    (hgap : ∀ c ∈ gap, Text.isBlank c = true) (hcolumn : t.column = column + gap.length)
    (hw : Lexed w t.lexeme rest) (hrest : Laid (t.column + w.length) rest ts) :
    Laid column (gap ++ (w ++ rest)) (t :: ts)

section Characters

/-- No range of the one list meets one of the other. -/
theorem not_contain_of_apart {rs rs' : Text.Ranges}
    (h : ∀ r ∈ rs, ∀ r' ∈ rs', r.2 < r'.1 ∨ r'.2 < r.1) {n : Nat} (hn : rs.contain n = true) :
    rs'.contain n = false := by
  simp only [Text.Ranges.contain, List.any_eq_true, Bool.and_eq_true, decide_eq_true_eq,
    List.any_eq_false] at hn ⊢
  obtain ⟨r, hr, hlow, hhigh⟩ := hn
  intro r' hr' hin
  have hapart := h r hr r' hr'
  omega

theorem isDigit_ordinary {c : Char} (h : Text.isDigit c = true) : isOrdinary c = true := by
  by_cases hc : c.toNat < 128
  · have hall := of_ascii (p := fun c => !Text.isDigit c || isOrdinary c) (by decide) hc
    simpa [h] using hall
  · have hdigit : Text.digitRanges.contain c.toNat = true := by
      rwa [Text.isDigit, if_neg hc] at h
    have hblank : Text.isBlank c = false := not_contain_of_apart (by decide) hdigit
    have hother : ∀ x : Char, x.toNat < 128 → c ≠ x := by
      intro x hx hcx
      rw [hcx] at hc
      exact hc hx
    simp [isOrdinary, hblank, hother ';' (by decide), hother Text.doubleQuote (by decide),
      hother Text.singleQuote (by decide)]

theorem cut_ordinary {c : Char} (hc : isOrdinary c = true) (rest : List Char) :
    cut c rest =
      if Text.isDigit c then
        .token (.number (String.ofList (c :: numberTail rest))) (numberTail rest).length
      else if startsName c rest then
        .token (.ident (String.ofList (c :: rest.takeWhile isNameChar)))
          (rest.takeWhile isNameChar).length
      else if isPunctuation c then .token (.punct c) 0
      else .fail fun column => .unexpectedChar column c := by
  simp only [isOrdinary, Bool.and_eq_true, decide_eq_true_eq, Bool.not_eq_true', ne_eq] at hc
  obtain ⟨⟨⟨hsemi, hblank⟩, hdouble⟩, hsingle⟩ := hc
  rw [cut, if_neg hsemi, if_neg (by simp [hblank]), if_neg (by simp [hdouble, hsingle])]

/-- What is left where a name ends does not go on with it. -/
theorem head?_dropWhile_isNameChar (cs : List Char) :
    ∀ x ∈ (cs.dropWhile isNameChar).head?, isNameChar x = false := by
  intro x hx
  have hnot := List.head?_dropWhile_not isNameChar cs
  rw [Option.mem_def.mp hx] at hnot
  simpa using hnot

end Characters

section Cuts

variable {c : Char} {rest : List Char} {l : Lexeme} {used : Nat}

/-- A number is written as name characters, with or without a dot, and is as long as it can be. -/
theorem lexed_numberTail (hc : Text.isDigit c = true) (rest : List Char) :
    ∃ after, rest = numberTail rest ++ after ∧
      Lexed (c :: numberTail rest) (.number (String.ofList (c :: numberTail rest))) after := by
  have hsplit : rest.takeWhile isNameChar ++ rest.dropWhile isNameChar = rest :=
    List.takeWhile_append_dropWhile
  have htail : ∀ x ∈ rest.takeWhile isNameChar, isNameChar x = true :=
    fun x hx => List.mem_takeWhile_imp hx
  have hhead := head?_dropWhile_isNameChar rest
  unfold numberTail
  split
  · next after hdrop =>
    rw [hdrop] at hsplit
    refine ⟨after, ?_, .dotted hc htail⟩
    rw [List.append_assoc]
    exact hsplit.symm
  · next hdot =>
    refine ⟨rest.dropWhile isNameChar, hsplit.symm, .number hc htail ?_⟩
    intro x hx
    constructor
    · exact hhead x hx
    · intro hxdot
      obtain ⟨after, hafter⟩ := List.head?_eq_some_iff.mp (Option.mem_def.mp hx)
      exact hdot after (hxdot ▸ hafter)

/-- A name that starts with a dot has a letter after it, which is part of the name. -/
theorem startsName_takeWhile (h : startsName c rest = true) :
    startsName c (rest.takeWhile isNameChar) = true := by
  cases rest with
  | nil => exact h
  | cons d rest =>
    unfold startsName at h ⊢
    by_cases hd : isNameStart d = true
    · have hname : isNameChar d = true := by rw [isNameChar, hd, Bool.true_or]
      rw [List.takeWhile_cons_of_pos hname]
      exact h
    · have hc : isNameStart c = true := by simpa [hd] using h
      rw [hc, Bool.true_or]

/-- A round that takes a token takes the characters of its lexeme. -/
theorem lexed_of_cut (h : cut c rest = .token l used) :
    ∃ tail after, rest = tail ++ after ∧ tail.length = used ∧ Lexed (c :: tail) l after := by
  unfold cut at h
  split_ifs at h with hsemi hblank hquote hdigit hname hpunct
  · cases htext : scanText c rest with
    | none =>
      rw [htext] at h
      cases h
    | some r =>
      obtain ⟨value, n, after⟩ := r
      rw [htext] at h
      cases h
      obtain ⟨hle, -⟩ := scanText_rest htext
      -- the text is read the same way if nothing follows its closing quote
      have hlength : (rest.take used).length = used := List.length_take_of_le hle
      rw [← List.take_append_drop used rest] at htext
      have hbody := scanText_append htext (Nat.le_of_eq hlength.symm) []
      rw [List.append_nil, List.append_nil, List.drop_of_length_le (Nat.le_of_eq hlength)] at hbody
      have hquote' : c = Text.doubleQuote ∨ c = Text.singleQuote := by simpa using hquote
      exact ⟨rest.take used, rest.drop used, (List.take_append_drop used rest).symm, hlength,
        .text hquote' hbody⟩
  · cases h
    obtain ⟨after, hrest, hlexed⟩ := lexed_numberTail hdigit rest
    exact ⟨numberTail rest, after, hrest, rfl, hlexed⟩
  · cases h
    exact ⟨rest.takeWhile isNameChar, rest.dropWhile isNameChar,
      List.takeWhile_append_dropWhile.symm, rfl,
      .ident (startsName_takeWhile hname) (fun x hx => List.mem_takeWhile_imp hx)
        (head?_dropWhile_isNameChar rest)⟩
  · cases h
    exact ⟨[], rest, rfl, rfl, .punct hpunct⟩

/-- A lexeme is taken by one round, whole and alone. -/
theorem cut_of_lexed {tail : List Char} (h : Lexed (c :: tail) l rest) :
    cut c (tail ++ rest) = .token l tail.length := by
  cases h with
  | ident hfirst htail hrest =>
    have hstarts : startsName c (tail ++ rest) = true := by
      have hnil : startsName c (tail ++ []) = true := by rwa [List.append_nil]
      refine startsName_append hnil ?_
      rw [List.append_nil]
      exact (List.takeWhile_sublist _).length_le
    obtain ⟨hordinary, hdigit⟩ := startsName_ordinary hstarts
    rw [cut_ordinary hordinary, if_neg (by simp [hdigit]), if_pos hstarts,
      (takeWhile_append_of_head? htail hrest).1]
  | number hfirst htail hrest =>
    rw [cut_ordinary (isDigit_ordinary hfirst), if_pos hfirst, numberTail_of_breaks htail hrest]
  | @dotted _ tail _ hfirst htail =>
    have hdot : ∀ x ∈ ('.' :: rest).head?, isNameChar x = false := by
      intro x hx
      cases hx
      decide
    have hsplit := takeWhile_append_of_head? htail hdot
    have hnumber : numberTail (tail ++ '.' :: rest) = tail ++ ['.'] := by
      rw [numberTail, hsplit.1, hsplit.2]
      rfl
    rw [List.append_assoc, List.singleton_append, cut_ordinary (isDigit_ordinary hfirst),
      if_pos hfirst, hnumber]
  | text hquote hbody =>
    obtain ⟨hcut, hused⟩ := @cut_text _ _ _ rest _ hquote hbody
    rw [hcut, hused]
  | punct hc =>
    obtain ⟨hordinary, hdigit, hname⟩ := isPunctuation_ordinary hc rest
    rw [List.nil_append, cut_ordinary hordinary, if_neg (by simp [hdigit]),
      if_neg (by simp [hname]), if_pos hc]
    rfl

end Cuts

section Lines

variable {room column : Nat} {cs : List Char} {ts : List Token}

theorem isBlank_of_cut_skip {c : Char} {rest : List Char} (h : cut c rest = .skip) :
    Text.isBlank c = true := by
  unfold cut at h
  split_ifs at h with hsemi hblank
  · exact hblank
  · split at h <;> cases h

theorem eq_semicolon_of_cut_stop {c : Char} {rest : List Char} (h : cut c rest = .stop) :
    c = ';' := by
  unfold cut at h
  split_ifs at h with hsemi
  · exact hsemi
  · split at h <;> cases h

theorem Laid.blank {c : Char} (hc : Text.isBlank c = true) (h : Laid (column + 1) cs ts) :
    Laid column (c :: cs) ts := by
  cases h with
  | @done _ gap rest hgap hrest =>
    have hgap' : ∀ x ∈ c :: gap, Text.isBlank x = true := List.forall_mem_cons.mpr ⟨hc, hgap⟩
    exact .done (c :: gap) hgap' hrest
  | @token _ gap w rest t ts hgap hcolumn hw hrest =>
    have hgap' : ∀ x ∈ c :: gap, Text.isBlank x = true := List.forall_mem_cons.mpr ⟨hc, hgap⟩
    have hcolumn' : t.column = column + (c :: gap).length := by
      rw [hcolumn, List.length_cons]
      omega
    exact .token (c :: gap) hgap' hcolumn' hw hrest

/-- The tokens of a line lie in it one after the other. -/
theorem laid_of_scan (h : scan room column cs = .ok ts) (hroom : cs.length ≤ room) :
    Laid column cs ts := by
  induction room generalizing column cs ts with
  | zero =>
    obtain rfl := List.length_eq_zero_iff.mp (Nat.le_zero.mp hroom)
    cases h
    exact .done [] (by simp) (by simp)
  | succ room ih =>
    cases cs with
    | nil =>
      cases h
      exact .done [] (by simp) (by simp)
    | cons c rest =>
      rw [List.length_cons] at hroom
      rw [scan_succ] at h
      cases hcut : cut c rest with
      | stop =>
        rw [hcut] at h
        cases h
        have hc := eq_semicolon_of_cut_stop hcut
        exact .done [] (by simp) (by simp [hc])
      | fail fault =>
        rw [hcut] at h
        cases h
      | skip =>
        rw [hcut] at h
        exact (ih h (by omega)).blank (isBlank_of_cut_skip hcut)
      | token l used =>
        rw [hcut] at h
        obtain ⟨us, hus, h⟩ := bind_eq_ok.mp h
        cases h
        obtain ⟨tail, after, rfl, rfl, hlexed⟩ := lexed_of_cut hcut
        rw [List.drop_left] at hus
        rw [List.length_append] at hroom
        have hrest := ih hus (by omega)
        rw [Nat.add_assoc, Nat.add_comm 1] at hrest
        exact @Laid.token column [] (c :: tail) after ⟨l, column⟩ us (by simp) rfl hlexed hrest

theorem scan_gap {gap : List Char} (hgap : ∀ c ∈ gap, Text.isBlank c = true) (cs : List Char) :
    scan (gap.length + room) column (gap ++ cs) = scan room (column + gap.length) cs := by
  induction gap generalizing column with
  | nil => simp
  | cons c gap ih =>
    obtain ⟨hc, hgap⟩ := List.forall_mem_cons.mp hgap
    have hsemi : c ≠ ';' := by
      intro hsemi
      rw [hsemi] at hc
      revert hc
      decide
    have hroom : (c :: gap).length + room = gap.length + room + 1 := by
      rw [List.length_cons]
      omega
    rw [hroom, List.cons_append, scan, if_neg hsemi, if_pos hc, ih hgap, List.length_cons,
      Nat.add_assoc, Nat.add_comm 1]

/-- A line in which tokens lie like this is cut into these tokens. -/
theorem scan_of_laid (h : Laid column cs ts) (hroom : cs.length ≤ room) :
    scan room column cs = .ok ts := by
  induction h generalizing room with
  | @done column gap rest hgap hrest =>
    rw [List.length_append] at hroom
    obtain ⟨room, rfl⟩ : ∃ r, room = gap.length + r := ⟨room - gap.length, by omega⟩
    rw [scan_gap hgap]
    cases rest with
    | nil => exact scan_nil room _
    | cons c rest =>
      have hc : c = ';' := hrest c rfl
      rw [List.length_cons] at hroom
      obtain ⟨room, rfl⟩ : ∃ r, room = r + 1 := ⟨room - 1, by omega⟩
      exact if_pos hc
  | @token column gap w rest t ts hgap hcolumn hw _ ih =>
    cases w with
    | nil => cases hw
    | cons c tail =>
      simp only [List.length_append, List.length_cons] at hroom
      obtain ⟨room, rfl⟩ : ∃ r, room = gap.length + (r + 1) := ⟨room - gap.length - 1, by omega⟩
      have hnext := @ih room (by omega)
      have hshift : t.column + 1 + tail.length = t.column + (c :: tail).length := by
        rw [List.length_cons]
        omega
      rw [scan_gap hgap, ← hcolumn, List.cons_append, scan_succ, cut_of_lexed hw]
      dsimp only
      rw [List.drop_left, hshift, hnext]
      rfl

/-- A line is cut into tokens exactly if they lie in it like this. -/
theorem tokenize_eq_ok_iff {line : String} : tokenize line = .ok ts ↔ Laid 1 line.toList ts :=
  ⟨fun h => laid_of_scan h (Nat.le_refl _), fun h => scan_of_laid h (Nat.le_refl _)⟩

theorem Laid.column_le (h : Laid column cs ts) : ∀ t ∈ ts, column ≤ t.column := by
  induction h with
  | done => simp
  | @token column gap w rest t ts _ hcolumn _ _ ih =>
    rw [List.forall_mem_cons]
    constructor
    · omega
    · intro u hu
      have hle := ih u hu
      omega

theorem Lexed.length_pos {w rest : List Char} {l : Lexeme} (h : Lexed w l rest) : 0 < w.length := by
  cases h <;> simp

/-- Tokens are told in the order in which they stand. -/
theorem Laid.columns_increase (h : Laid column cs ts) :
    ts.Pairwise fun t u => t.column < u.column := by
  induction h with
  | done => exact .nil
  | @token column gap w rest t ts _ _ hw hrest ih =>
    apply List.Pairwise.cons
    · intro u hu
      have hpos := hw.length_pos
      have hle := hrest.column_le u hu
      omega
    · exact ih

/-- Only a text stands for other characters than its own. -/
theorem Lexed.eq_value {w rest : List Char} {l : Lexeme} (h : Lexed w l rest)
    (hl : ∀ s, l ≠ .text s) : w = l.value.toList := by
  cases h with
  | ident => simp [Lexeme.value]
  | number => simp [Lexeme.value]
  | dotted => simp [Lexeme.value]
  | text => exact absurd rfl (hl _)
  | punct => simp [Lexeme.value]

/-- The characters of a token that is no text stand at its column. -/
theorem Laid.value_at (h : Laid column cs ts) {t : Token} (ht : t ∈ ts)
    (hl : ∀ s, t.lexeme ≠ .text s) : ∃ before after,
      cs = before ++ (t.lexeme.value.toList ++ after) ∧ t.column = column + before.length := by
  induction h with
  | done => cases ht
  | @token column gap w rest u ts _ hcolumn hw _ ih =>
    rcases List.mem_cons.mp ht with rfl | ht
    · exact ⟨gap, rest, by rw [hw.eq_value hl], hcolumn⟩
    · obtain ⟨before, after, hrest, hbefore⟩ := ih ht
      refine ⟨gap ++ (w ++ before), after, ?_, ?_⟩
      · rw [hrest]
        simp
      · rw [List.length_append, List.length_append]
        omega

theorem Laid.lexed (h : Laid column cs ts) : ∀ t ∈ ts, ∃ w rest, Lexed w t.lexeme rest := by
  induction h with
  | done => simp
  | token _ _ _ hw _ ih => exact List.forall_mem_cons.mpr ⟨⟨_, _, hw⟩, ih⟩

end Lines

section Rendering

/-- A character of a text between double quotes. -/
def escaped (c : Char) : List Char :=
  if c = Text.backslash || c = Text.doubleQuote then [Text.backslash, c] else [c]

/-- How a lexeme is written anew: a text between double quotes, all others as they are. -/
def Lexeme.rewritten : Lexeme → List Char
  | .text s => Text.doubleQuote :: (s.toList.flatMap escaped ++ [Text.doubleQuote])
  | l => l.value.toList

/-- Lexemes with one blank between them. -/
def rendered (ls : List Lexeme) : List Char := [' '].intercalate (ls.map Lexeme.rewritten)

theorem rendered_cons_cons (l l' : Lexeme) (ls : List Lexeme) :
    rendered (l :: l' :: ls) = l.rewritten ++ ' ' :: rendered (l' :: ls) := by
  simp [rendered, List.intercalate_cons_cons]

/-- Reading a text that was written anew gives the text. -/
theorem scanText_escaped (value : List Char) :
    scanText Text.doubleQuote (value.flatMap escaped ++ [Text.doubleQuote]) =
      some (value, (value.flatMap escaped).length + 1, []) := by
  induction value with
  | nil => rfl
  | cons c value ih =>
    rw [List.flatMap_cons, List.append_assoc, escaped]
    by_cases hc : (c = Text.backslash || c = Text.doubleQuote) = true
    · have hmeant : unescape c = c := by
        have hcases : c = Text.backslash ∨ c = Text.doubleQuote := by simpa using hc
        rcases hcases with rfl | rfl <;> decide
      rw [if_pos hc, List.cons_append, List.cons_append, scanText, if_neg (by decide), if_pos rfl]
      rw [List.nil_append, ih, Option.map_some, hmeant]
      simp
    · obtain ⟨hslash, hquote⟩ : c ≠ Text.backslash ∧ c ≠ Text.doubleQuote := by simpa using hc
      rw [if_neg hc, List.singleton_append, scanText.eq_def]
      simp only [hquote, hslash, if_false]
      rw [ih]
      simp

/-- A lexeme that is written anew can be read again, whatever breaks it off. -/
theorem Lexed.rewritten {w rest : List Char} {l : Lexeme} (h : Lexed w l rest) {rest' : List Char}
    (hrest : Breaks rest') : Lexed l.rewritten l rest' := by
  have hsame : (∀ s, l ≠ .text s) → l.rewritten = w := by
    intro hl
    rw [h.eq_value hl]
    cases l with
    | text s => exact absurd rfl (hl s)
    | _ => rfl
  cases h with
  | ident hfirst htail _ =>
    rw [hsame (by simp)]
    exact .ident hfirst htail fun x hx => (hrest x hx).1
  | number hfirst htail _ =>
    rw [hsame (by simp)]
    exact .number hfirst htail hrest
  | dotted hfirst htail =>
    rw [hsame (by simp)]
    exact .dotted hfirst htail
  | @text _ _ value =>
    have hread := scanText_escaped value
    rw [Lexeme.rewritten, String.toList_ofList]
    exact .text (.inl rfl) hread
  | punct hc =>
    rw [hsame (by simp)]
    exact .punct hc

/-- The induction carries the blanks before the first lexeme, which is the one between two lexemes
from the second round on. -/
theorem laid_rendered {ls : List Lexeme} (h : ∀ l ∈ ls, ∃ w rest, Lexed w l rest) {gap : List Char}
    (hgap : ∀ c ∈ gap, Text.isBlank c = true) (column : Nat) :
    ∃ ts, Laid column (gap ++ rendered ls) ts ∧ ts.map (·.lexeme) = ls := by
  induction ls generalizing gap column with
  | nil => exact ⟨[], .done gap hgap (by simp [rendered]), rfl⟩
  | cons l ls ih =>
    obtain ⟨⟨w, rest, hw⟩, h⟩ := List.forall_mem_cons.mp h
    cases ls with
    | nil =>
      have hlexed := hw.rewritten breaks_nil
      have hend : ∀ n, Laid n [] [] := fun n => .done [] (by simp) (by simp)
      refine ⟨[⟨l, column + gap.length⟩], ?_, rfl⟩
      have hlaid := @Laid.token column gap _ _ ⟨l, column + gap.length⟩ _ hgap rfl hlexed (hend _)
      simpa [rendered] using hlaid
    | cons l' ls =>
      have hlexed := hw.rewritten (breaks_cons rfl (rendered (l' :: ls)) : Breaks (' ' :: _))
      have hblank : ∀ c ∈ [' '], Text.isBlank c = true :=
        List.forall_mem_singleton.mpr (by decide)
      obtain ⟨ts, hts, hls⟩ := @ih h [' '] hblank (column + gap.length + l.rewritten.length)
      refine ⟨⟨l, column + gap.length⟩ :: ts, ?_, by rw [List.map_cons, hls]⟩
      rw [rendered_cons_cons]
      exact .token gap hgap rfl hlexed hts

end Rendering

/-- Cutting a line into tokens loses nothing but blanks and the comment. The tokens lie in the line
one after the other, each at its column, with blanks before them and nothing but blanks and a comment
behind them; a token that is no text is the characters at its column. Written anew with one blank
between them the lexemes make a line that is cut into the same lexemes. -/
theorem tokenize_lossless {line : String} {ts : List Token} (h : tokenize line = .ok ts) :
    Laid 1 line.toList ts ∧ (ts.Pairwise fun t u => t.column < u.column) ∧
      (∀ t ∈ ts, (∀ s, t.lexeme ≠ .text s) → ∃ before after,
        line.toList = before ++ (t.lexeme.value.toList ++ after) ∧
          t.column = 1 + before.length) ∧
      ∃ us, tokenize (String.ofList (rendered (ts.map (·.lexeme)))) = .ok us ∧
        us.map (·.lexeme) = ts.map (·.lexeme) := by
  have hlaid := tokenize_eq_ok_iff.mp h
  refine ⟨hlaid, hlaid.columns_increase, fun t ht hl => hlaid.value_at ht hl, ?_⟩
  have hlexed : ∀ l ∈ ts.map (·.lexeme), ∃ w rest, Lexed w l rest :=
    List.forall_mem_map.mpr hlaid.lexed
  obtain ⟨us, hus, hsame⟩ := @laid_rendered _ hlexed [] (by simp) 1
  have hagain : tokenize (String.ofList (rendered (ts.map (·.lexeme)))) = .ok us := by
    rw [tokenize_eq_ok_iff, String.toList_ofList]
    exact hus
  exact ⟨us, hagain, hsame⟩

def quotedLine : String := "L1:\t.BYTE 10.,'a\"'  ; end"

def quotedTokens : List Token :=
  [⟨.ident "L1", 1⟩, ⟨.punct ':', 3⟩, ⟨.ident ".BYTE", 5⟩, ⟨.number "10.", 11⟩, ⟨.punct ',', 14⟩,
    ⟨.text "a\"", 15⟩]

theorem tokenize_lossless_quoted :
    tokenize quotedLine = .ok quotedTokens ∧ Laid 1 quotedLine.toList quotedTokens ∧
      ∃ us, tokenize "L1 : .BYTE 10. , \"a\\\"\"" = .ok us ∧
        us.map (·.lexeme) = quotedTokens.map (·.lexeme) := by
  have h : tokenize quotedLine = .ok quotedTokens := by decide +kernel
  obtain ⟨hlaid, -, -, hagain⟩ := tokenize_lossless h
  have hrendered : String.ofList (rendered (quotedTokens.map (·.lexeme))) =
      "L1 : .BYTE 10. , \"a\\\"\"" := by decide +kernel
  rw [hrendered] at hagain
  exact ⟨h, hlaid, hagain⟩

end Eleven.Source

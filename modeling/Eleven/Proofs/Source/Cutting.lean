import Eleven.Proofs.Failure.Matched
import Eleven.Proofs.Source.Lexing
import Mathlib.Tactic.SplitIfs

/-! Where a line is cut into tokens: what stands before a token is cut the same way whatever
follows, as long as that cannot go on with a name or a number. -/
namespace Eleven.Source

/-- What the characters from one on amount to. -/
inductive Cut where
  /-- A comment. -/
  | stop
  /-- Nothing can be made of them; the fault names the column. -/
  | fail (fault : Nat → LexicalFault)
  | skip
  /-- A lexeme, and the number of its characters after the first. -/
  | token (l : Lexeme) (used : Nat)

/-- One round of cutting. -/
def cut (c : Char) (rest : List Char) : Cut :=
  if c = ';' then .stop
  else if Text.isBlank c then .skip
  else if c = Text.doubleQuote || c = Text.singleQuote then
    match scanText c rest with
    | none => .fail .unterminatedText
    | some (value, used, _) => .token (.text (String.ofList value)) used
  else if Text.isDigit c then
    .token (.number (String.ofList (c :: numberTail rest))) (numberTail rest).length
  else if startsName c rest then
    .token (.ident (String.ofList (c :: rest.takeWhile isNameChar)))
      (rest.takeWhile isNameChar).length
  else if isPunctuation c then .token (.punct c) 0
  else .fail fun column => .unexpectedChar column c

section Texts

variable {quote : Char} {cs value rest : List Char} {used : Nat}

theorem scanText_rest (h : scanText quote cs = some (value, used, rest)) :
    used ≤ cs.length ∧ rest = cs.drop used := by
  obtain ⟨body, rfl, rfl⟩ := scanText_split h
  constructor
  · simp only [List.length_append, List.length_cons]
    omega
  · rw [List.drop_length_add_append]
    rfl

/-- What follows the closing quote is not looked at. -/
theorem scanText_append {p x : List Char} (h : scanText quote (p ++ x) = some (value, used, rest))
    (hused : used ≤ p.length) (y : List Char) :
    scanText quote (p ++ y) = some (value, used, p.drop used ++ y) := by
  generalize hcs : p ++ x = cs at h
  fun_induction scanText quote cs generalizing p value used with
  | case1 => cases h
  | case2 after =>
    cases h
    cases p with
    | nil => simp at hused
    | cons c p =>
      cases hcs
      rw [List.cons_append, scanText.eq_def]
      simp
  | case3 => cases h
  | case4 d after hquote ih =>
    obtain ⟨⟨value, used, rest⟩, hr, h⟩ := Option.map_eq_some_iff.mp h
    cases h
    obtain _ | ⟨c, _ | ⟨d', p⟩⟩ := p
    · simp at hused
    · simp at hused
    · cases hcs
      simp only [List.length_cons] at hused
      rw [List.cons_append, List.cons_append, scanText, if_neg hquote, if_pos rfl]
      dsimp only
      rw [ih (by omega) rfl hr]
      rfl
  | case5 c after hquote hslash ih =>
    obtain ⟨⟨value, used, rest⟩, hr, h⟩ := Option.map_eq_some_iff.mp h
    cases h
    cases p with
    | nil => simp at hused
    | cons c' p =>
      cases hcs
      simp only [List.length_cons] at hused
      rw [List.cons_append, scanText.eq_def]
      simp only [hquote, hslash, if_false, ih (by omega) rfl hr]
      rfl

end Texts

theorem scan_succ (room column : Nat) (c : Char) (rest : List Char) :
    scan (room + 1) column (c :: rest) =
      match cut c rest with
      | .stop => .ok []
      | .fail fault => .error (fault column)
      | .skip => scan room (column + 1) rest
      | .token l used =>
        scan room (column + 1 + used) (rest.drop used) >>= fun ts => .ok (⟨l, column⟩ :: ts) := by
  rw [scan, cut]
  split_ifs
  · rfl
  · rfl
  · cases h : scanText c rest with
    | none => rfl
    | some r =>
      obtain ⟨value, used, after⟩ := r
      obtain ⟨-, rfl⟩ := scanText_rest h
      rfl
  · rfl
  · rfl
  · rfl
  · rfl

section Cuts

variable {c : Char} {p x y : List Char}

theorem takeWhile_of_breaks (hy : Breaks y) : y.takeWhile isNameChar = [] := by
  have hnil := @takeWhile_append_of_breaks [] y (by simp) hy
  exact hnil.1

/-- A name that ends within the first part is found whatever breaks it off. -/
theorem takeWhile_append_of_le (h : ((p ++ x).takeWhile isNameChar).length ≤ p.length)
    (hy : Breaks y) : (p ++ y).takeWhile isNameChar = (p ++ x).takeWhile isNameChar := by
  rw [List.takeWhile_append] at h
  rw [List.takeWhile_append, List.takeWhile_append]
  split_ifs at h ⊢ with hall
  · rw [List.length_append] at h
    have hx : x.takeWhile isNameChar = [] := List.length_eq_zero_iff.mp (by omega)
    rw [takeWhile_of_breaks hy, hx]
  · rfl

theorem numberTail_cons {d : Char} (hd : isNameChar d = true) (rest : List Char) :
    numberTail (d :: rest) = d :: numberTail rest := by
  unfold numberTail
  rw [List.dropWhile_cons_of_pos hd, List.takeWhile_cons_of_pos hd]
  split <;> rfl

/-- A number ends at a character that is no part of a name, or with a dot there. -/
theorem numberTail_cons_of_not {d : Char} (hd : ¬ isNameChar d = true) (rest rest' : List Char) :
    numberTail (d :: rest) = numberTail (d :: rest') := by
  unfold numberTail
  rw [List.dropWhile_cons_of_neg hd, List.takeWhile_cons_of_neg hd,
    List.dropWhile_cons_of_neg hd, List.takeWhile_cons_of_neg hd]
  by_cases hdot : d = '.'
  · subst hdot
    rfl
  · split
    · rename_i h
      exact absurd (List.cons.inj h).1 hdot
    · split
      · rename_i h
        exact absurd (List.cons.inj h).1 hdot
      · rfl

theorem numberTail_append_of_le (h : (numberTail (p ++ x)).length ≤ p.length) (hy : Breaks y) :
    numberTail (p ++ y) = numberTail (p ++ x) := by
  induction p with
  | nil =>
    have hx : numberTail x = [] := List.length_eq_zero_iff.mp (Nat.le_zero.mp h)
    have hynil : numberTail y = [] := @numberTail_of_breaks [] y (by simp) hy
    rw [List.nil_append, List.nil_append, hx, hynil]
  | cons d p ih =>
    by_cases hd : isNameChar d = true
    · rw [List.cons_append, numberTail_cons hd, List.length_cons, List.length_cons] at h
      rw [List.cons_append, List.cons_append, numberTail_cons hd, numberTail_cons hd,
        ih (by omega)]
    · exact numberTail_cons_of_not hd _ _

theorem startsName_append (h : startsName c (p ++ x) = true)
    (hle : ((p ++ x).takeWhile isNameChar).length ≤ p.length) : startsName c (p ++ y) = true := by
  unfold startsName at h ⊢
  by_cases hc : isNameStart c = true
  · rw [hc, Bool.true_or]
  · cases p with
    | cons d p => exact h
    | nil =>
      rw [Bool.or_eq_true, or_iff_right hc, Bool.and_eq_true] at h
      cases x with
      | nil => exact absurd h.2 (by simp)
      | cons d x =>
        -- a name that starts with a dot goes on with a letter
        have hd : isNameStart d = true := by simpa using h.2
        have hname : isNameChar d = true := by rw [isNameChar, hd, Bool.true_or]
        rw [List.nil_append, List.takeWhile_cons_of_pos hname] at hle
        simp at hle

theorem cut_skip {rest : List Char} (h : cut c rest = .skip) (rest' : List Char) :
    cut c rest' = .skip := by
  unfold cut at h
  split_ifs at h with hsemi hblank
  · rw [cut, if_neg hsemi, if_pos hblank]
  · split at h <;> cases h

/-- A token that ends within the first part is cut off whatever breaks it off. -/
theorem cut_append {l : Lexeme} {used : Nat} (h : cut c (p ++ x) = .token l used)
    (hused : used ≤ p.length) (hy : Breaks y) : cut c (p ++ y) = .token l used := by
  unfold cut at h ⊢
  by_cases hsemi : c = ';'
  · rw [if_pos hsemi] at h
    cases h
  rw [if_neg hsemi] at h ⊢
  by_cases hblank : Text.isBlank c = true
  · rw [if_pos hblank] at h
    cases h
  rw [if_neg hblank] at h ⊢
  by_cases hquote : (c = Text.doubleQuote || c = Text.singleQuote) = true
  · rw [if_pos hquote] at h ⊢
    cases htext : scanText c (p ++ x) with
    | none =>
      rw [htext] at h
      cases h
    | some r =>
      obtain ⟨value, n, rest⟩ := r
      rw [htext] at h
      cases h
      rw [scanText_append htext hused y]
  rw [if_neg hquote] at h ⊢
  by_cases hdigit : Text.isDigit c = true
  · rw [if_pos hdigit] at h ⊢
    cases h
    rw [numberTail_append_of_le hused hy]
  rw [if_neg hdigit] at h ⊢
  by_cases hname : startsName c (p ++ x) = true
  · rw [if_pos hname] at h
    cases h
    rw [if_pos (startsName_append hname hused), takeWhile_append_of_le hused hy]
  · rw [if_neg hname] at h
    split_ifs at h with hpunct
    obtain ⟨-, -, hname'⟩ := isPunctuation_ordinary hpunct (p ++ y)
    rw [if_neg (by simp [hname']), if_pos hpunct]
    exact h

end Cuts

/-- A letter, `_` or `$`, then letters, digits, `_` and `$`. -/
def IsName (cs : List Char) : Prop :=
  ∃ first tail, cs = first :: tail ∧ isNameStart first = true ∧ ∀ x ∈ tail, isNameChar x = true

/-- The characters with which a number or a quoted text is written. -/
inductive Spells : List Char → Lexeme → Prop
  | number {first : Char} {tail : List Char} (hfirst : Text.isDigit first = true)
    (htail : ∀ x ∈ tail, isNameChar x = true ∨ x = '.') :
    Spells (first :: tail) (.number (String.ofList (first :: tail)))
  | text {quote : Char} {body value : List Char} {used : Nat}
    (hquote : quote = Text.doubleQuote ∨ quote = Text.singleQuote)
    (hbody : scanText quote body = some (value, used, [])) :
    Spells (quote :: body) (.text (String.ofList value))

theorem cut_number {c : Char} {rest : List Char} {digits : String} {used : Nat}
    (h : cut c rest = .token (.number digits) used) :
    digits = String.ofList (c :: numberTail rest) ∧ used = (numberTail rest).length := by
  unfold cut at h
  split_ifs at h
  · split at h <;> cases h
  · cases h
    exact ⟨rfl, rfl⟩
  · cases h
  · cases h

theorem cut_text {quote : Char} {body value q : List Char} {used : Nat}
    (hquote : quote = Text.doubleQuote ∨ quote = Text.singleQuote)
    (hbody : scanText quote body = some (value, used, [])) :
    cut quote (body ++ q) = .token (.text (String.ofList value)) used ∧ used = body.length := by
  obtain ⟨hle, hrest⟩ := scanText_rest hbody
  have hused : used = body.length := by
    have hlength := congrArg List.length hrest
    rw [List.length_drop, List.length_nil] at hlength
    omega
  have happend : scanText quote (body ++ q) = some (value, used, body.drop used ++ q) := by
    refine @scanText_append quote value [] used body [] ?_ hle q
    rw [List.append_nil]
    exact hbody
  have hopen : quote ≠ ';' ∧ Text.isBlank quote = false ∧
      (quote = Text.doubleQuote || quote = Text.singleQuote) = true := by
    rcases hquote with rfl | rfl <;> decide
  refine ⟨?_, hused⟩
  rw [cut, if_neg hopen.1, if_neg (by simp [hopen.2.1]), if_pos hopen.2.2, happend]

/-- A token takes the characters that spell it. -/
theorem used_of_spells {c : Char} {tail q : List Char} {l : Lexeme} {used : Nat}
    (h : cut c (tail ++ q) = .token l used) (hw : Spells (c :: tail) l) : used = tail.length := by
  cases hw with
  | number =>
    obtain ⟨hdigits, hused⟩ := cut_number h
    have htail : tail = numberTail (tail ++ q) :=
      (List.cons.inj (String.ofList_injective hdigits)).2
    exact hused.trans (congrArg List.length htail).symm
  | text hquote hbody =>
    obtain ⟨hcut, hused⟩ := @cut_text _ _ _ q _ hquote hbody
    rw [h] at hcut
    cases hcut
    exact hused

section Scans

theorem column_le_of_scan {room column : Nat} {cs : List Char} {ts : List Token}
    (h : scan room column cs = .ok ts) : ∀ t ∈ ts, column ≤ t.column := by
  induction room generalizing column cs ts with
  | zero =>
    cases cs with
    | nil => cases h; simp
    | cons => cases h; simp
  | succ room ih =>
    cases cs with
    | nil => cases h; simp
    | cons c rest =>
      rw [scan_succ] at h
      cases hcut : cut c rest with
      | stop =>
        rw [hcut] at h
        cases h
        simp
      | fail fault =>
        rw [hcut] at h
        cases h
      | skip =>
        rw [hcut] at h
        intro t ht
        have hle := ih h t ht
        omega
      | token l used =>
        rw [hcut] at h
        obtain ⟨us, hus, h⟩ := bind_eq_ok.mp h
        cases h
        intro t ht
        rcases List.mem_cons.mp ht with rfl | ht
        · exact Nat.le_refl _
        · have hle := ih hus t ht
          omega

/-- Neither the column where a line starts nor room to spare changes its lexemes. -/
theorem matched_scan {room room' : Nat} (column column' : Nat) {cs : List Char}
    (hroom : cs.length ≤ room) (hroom' : cs.length ≤ room') :
    Matched (fun ts ts' => ts'.map (·.lexeme) = ts.map (·.lexeme)) (scan room column cs)
      (scan room' column' cs) := by
  induction room generalizing room' column column' cs with
  | zero =>
    obtain rfl := List.length_eq_zero_iff.mp (Nat.le_zero.mp hroom)
    rw [scan_nil, scan_nil]
    exact .ok rfl
  | succ room ih =>
    cases cs with
    | nil =>
      rw [scan_nil, scan_nil]
      exact .ok rfl
    | cons c rest =>
      rw [List.length_cons] at hroom hroom'
      obtain ⟨room', rfl⟩ : ∃ r, room' = r + 1 := ⟨room' - 1, by omega⟩
      rw [scan_succ, scan_succ]
      cases cut c rest with
      | stop => exact .ok rfl
      | fail fault => exact .error _ _
      | skip => exact ih _ _ (by omega) (by omega)
      | token l used =>
        have hdrop : (rest.drop used).length ≤ rest.length := by
          rw [List.length_drop]
          omega
        refine (ih _ _ (by omega) (by omega)).bind fun us us' hus => .ok ?_
        rw [List.map_cons, List.map_cons, hus]

/-- What stands before a token is cut the same way whatever breaks it off there: no token before it
can reach beyond its column. -/
theorem scan_before {room column : Nat} {p x y : List Char} {ts : List Token} {t : Token}
    (h : scan room column (p ++ x) = .ok ts) (hroom : (p ++ x).length ≤ room) (ht : t ∈ ts)
    (hcolumn : t.column = column + p.length) (hy : Breaks y) :
    ∃ front behind r, ts = front ++ behind ∧ (∀ u ∈ front, u.column < t.column) ∧
      x.length ≤ r ∧ scan r t.column x = .ok behind ∧
      ∀ room', (p ++ y).length ≤ room' → ∃ r', y.length ≤ r' ∧ scan room' column (p ++ y) =
        (scan r' t.column y >>= fun us => .ok (front ++ us)) := by
  induction hn : p.length using Nat.strongRecOn generalizing p column ts room with
  | ind n ih =>
    cases p with
    | nil =>
      have hcolumn : t.column = column := hcolumn
      rw [hcolumn]
      refine ⟨[], ts, room, rfl, by simp, hroom, h, fun room' hroom' => ⟨room', hroom', ?_⟩⟩
      exact (bind_pure _).symm
    | cons c p =>
      rw [List.cons_append, List.length_cons] at hroom
      rw [List.length_cons] at hcolumn hn
      obtain ⟨room, rfl⟩ : ∃ r, room = r + 1 := ⟨room - 1, by omega⟩
      rw [List.cons_append, scan_succ] at h
      cases hcut : cut c (p ++ x) with
      | stop =>
        rw [hcut] at h
        cases h
        cases ht
      | fail fault =>
        rw [hcut] at h
        cases h
      | skip =>
        rw [hcut] at h
        obtain ⟨front, behind, r, hts, hfront, hr, hbehind, hright⟩ :=
          ih p.length (by omega) h (by omega) ht (by omega) rfl
        refine ⟨front, behind, r, hts, hfront, hr, hbehind, fun room' hroom' => ?_⟩
        rw [List.cons_append, List.length_cons] at hroom'
        obtain ⟨room', rfl⟩ : ∃ r, room' = r + 1 := ⟨room' - 1, by omega⟩
        rw [List.cons_append, scan_succ, cut_skip hcut]
        exact hright room' (by omega)
      | token l used =>
        rw [hcut] at h
        obtain ⟨us, hus, h⟩ := bind_eq_ok.mp h
        cases h
        have htail : t ∈ us := by
          rcases List.mem_cons.mp ht with rfl | ht
          · simp at hcolumn
          · exact ht
        have hle := column_le_of_scan hus t htail
        have hdrop : ∀ z : List Char, (p ++ z).drop used = p.drop used ++ z :=
          fun z => List.drop_append_of_le_length (by omega)
        have hlength : (p.drop used).length = p.length - used := List.length_drop
        rw [hdrop] at hus
        obtain ⟨front, behind, r, rfl, hfront, hr, hbehind, hright⟩ :=
          ih _ (by omega) hus (by rw [List.length_append] at hroom ⊢; omega) htail (by omega) rfl
        refine ⟨⟨l, column⟩ :: front, behind, r, rfl, ?_, hr, hbehind, fun room' hroom' => ?_⟩
        · exact List.forall_mem_cons.mpr ⟨by dsimp only; omega, hfront⟩
        · rw [List.cons_append, List.length_cons, List.length_append] at hroom'
          obtain ⟨room', rfl⟩ : ∃ r, room' = r + 1 := ⟨room' - 1, by omega⟩
          obtain ⟨r', hr', heq⟩ := hright room' (by rw [List.length_append]; omega)
          refine ⟨r', hr', ?_⟩
          rw [List.cons_append, scan_succ, cut_append hcut (by omega) hy]
          dsimp only
          rw [hdrop, heq, bind_assoc]
          rfl

/-- A lexeme spelled at the front is the first token, and the rest of the line follows it. -/
theorem scan_spelled {room column : Nat} {w q : List Char} {ts : List Token} {t : Token}
    (h : scan room column (w ++ q) = .ok ts) (hroom : (w ++ q).length ≤ room) (ht : t ∈ ts)
    (hcolumn : t.column = column) (hw : Spells w t.lexeme) :
    ∃ rest r, ts = t :: rest ∧ q.length ≤ r ∧ scan r (column + w.length) q = .ok rest := by
  obtain ⟨c, tail, rfl⟩ : ∃ c tail, w = c :: tail := by
    generalize t.lexeme = l at hw
    cases hw with
    | @number first tail _ _ => exact ⟨first, tail, rfl⟩
    | @text quote body _ _ _ _ => exact ⟨quote, body, rfl⟩
  rw [List.cons_append, List.length_cons, List.length_append] at hroom
  obtain ⟨room, rfl⟩ : ∃ r, room = r + 1 := ⟨room - 1, by omega⟩
  rw [List.cons_append, scan_succ] at h
  cases hcut : cut c (tail ++ q) with
  | stop =>
    rw [hcut] at h
    cases h
    cases ht
  | fail fault =>
    rw [hcut] at h
    cases h
  | skip =>
    rw [hcut] at h
    have hle := column_le_of_scan h t ht
    omega
  | token l used =>
    rw [hcut] at h
    obtain ⟨us, hus, h⟩ := bind_eq_ok.mp h
    cases h
    have hfirst : t = ⟨l, column⟩ := by
      rcases List.mem_cons.mp ht with ht | ht
      · exact ht
      · have hle := column_le_of_scan hus t ht
        omega
    subst hfirst
    have hused := used_of_spells hcut hw
    rw [hused, List.drop_left] at hus
    refine ⟨us, room, rfl, by omega, ?_⟩
    rw [List.length_cons, Nat.add_comm tail.length 1, ← Nat.add_assoc]
    exact hus

theorem getLast?_of_scanText {quote : Char} {cs value : List Char} {used : Nat}
    (h : scanText quote cs = some (value, used, [])) : cs.getLast? = some quote := by
  obtain ⟨body, rfl, -⟩ := scanText_split h
  exact List.getLast?_concat

/-- No carriage return ends a number or a quoted text. -/
theorem Spells.getLast?_ne {w : List Char} {l : Lexeme} (h : Spells w l) :
    w.getLast? ≠ some '\r' := by
  intro hlast
  cases h with
  | number hfirst htail =>
    rcases List.mem_cons.mp (List.mem_of_getLast? hlast) with hr | hr
    · rw [← hr] at hfirst
      revert hfirst
      decide
    · have hchar := htail '\r' hr
      revert hchar
      decide
  | text hquote hbody =>
    rw [List.getLast?_cons, getLast?_of_scanText hbody] at hlast
    rcases hquote with rfl | rfl <;> revert hlast <;> decide

theorem Spells.length_pos {w : List Char} {l : Lexeme} (h : Spells w l) : 0 < w.length := by
  cases h with
  | number => simp
  | text => simp

theorem cut_name {first : Char} {tail rest : List Char} (hfirst : isNameStart first = true)
    (htail : ∀ x ∈ tail, isNameChar x = true) (hrest : Breaks rest) :
    cut first (tail ++ rest) = .token (.ident (String.ofList (first :: tail))) tail.length := by
  have hstarts : startsName first (tail ++ rest) = true := by rw [startsName, hfirst, Bool.true_or]
  obtain ⟨hordinary, hdigit⟩ := startsName_ordinary hstarts
  simp only [isOrdinary, Bool.and_eq_true, decide_eq_true_eq, Bool.not_eq_true', ne_eq] at hordinary
  obtain ⟨⟨⟨hsemi, hblank⟩, hdouble⟩, hsingle⟩ := hordinary
  rw [cut, if_neg hsemi, if_neg (by simp [hblank]), if_neg (by simp [hdouble, hsingle]),
    if_neg (by simp [hdigit]), if_pos hstarts, (takeWhile_append_of_breaks htail hrest).1]

theorem scan_name {room column : Nat} {name q : List Char} (hname : IsName name)
    (hroom : (' ' :: (name ++ ' ' :: q)).length ≤ room) :
    ∃ r column', q.length ≤ r ∧ scan room column (' ' :: (name ++ ' ' :: q)) =
      (scan r column' q >>= fun us => .ok (⟨.ident (String.ofList name), column + 1⟩ :: us)) := by
  obtain ⟨first, tail, rfl, hfirst, htail⟩ := hname
  have hblank : Breaks (' ' :: q) := breaks_cons rfl q
  rw [List.length_cons, List.length_append, List.length_cons, List.length_cons] at hroom
  obtain ⟨room, rfl⟩ : ∃ r, room = r + 3 := ⟨room - 3, by omega⟩
  refine ⟨room, column + 1 + 1 + tail.length + 1, by omega, ?_⟩
  rw [scan_blank (.inl rfl), List.cons_append, scan_succ, cut_name hfirst htail hblank]
  dsimp only
  rw [List.drop_left, scan_blank (.inl rfl)]

/-- A line keeps its tokens when one of them is replaced by a name with blanks around it. -/
theorem tokenize_replaced {p w q name : List Char} {ts : List Token} {t : Token}
    (h : tokenize (String.ofList (p ++ (w ++ q))) = .ok ts) (ht : t ∈ ts)
    (hcolumn : t.column = p.length + 1) (hw : Spells w t.lexeme) (hname : IsName name) :
    ∃ front rest t' rest', ts = front ++ t :: rest ∧ (∀ u ∈ rest, t.column < u.column) ∧
      tokenize (String.ofList (p ++ ' ' :: (name ++ ' ' :: q))) = .ok (front ++ t' :: rest') ∧
      t'.lexeme = .ident (String.ofList name) ∧
      rest'.map (·.lexeme) = rest.map (·.lexeme) := by
  have hblank : Breaks (' ' :: (name ++ ' ' :: q)) := breaks_cons rfl _
  unfold tokenize at h ⊢
  dsimp only at h ⊢
  rw [String.toList_ofList] at h
  rw [String.toList_ofList]
  obtain ⟨front, behind, r, rfl, hfront, hr, hbehind, hright⟩ :=
    scan_before h (Nat.le_refl _) ht (by omega) hblank
  have hmem : t ∈ behind := by
    rcases List.mem_append.mp ht with ht | ht
    · exact absurd (hfront t ht) (Nat.lt_irrefl _)
    · exact ht
  obtain ⟨rest, r₂, rfl, hr₂, hrest⟩ := scan_spelled hbehind hr hmem rfl hw
  obtain ⟨r', hr', heq⟩ := hright _ (Nat.le_refl _)
  obtain ⟨r₃, column', hr₃, hscan⟩ := @scan_name r' t.column name q hname hr'
  have hsame := matched_scan (t.column + w.length) column' hr₂ hr₃
  rw [hrest] at hsame
  generalize hq : scan r₃ column' q = result at hsame
  cases hsame with
  | @ok _ rest' hlexemes =>
    refine ⟨front, rest, ⟨.ident (String.ofList name), t.column + 1⟩, rest', rfl, ?_, ?_, rfl,
      hlexemes⟩
    · intro u hu
      have hle := column_le_of_scan hrest u hu
      have hpos := hw.length_pos
      omega
    · rw [heq, hscan, hq]
      rfl

end Scans

end Eleven.Source

import Eleven.Proofs.Source.NamingLines
import Eleven.Proofs.Source.Parsing
import Eleven.Proofs.Text.Hexadecimal

/-! Texts in which one constant is replaced by a name that a first line defines. -/
namespace Eleven.Source

/-- The names among tokens, in upper case. -/
def namesOf (ts : List Token) : List String :=
  ts.filterMap fun t =>
    match t.lexeme with
    | .ident name => some (Text.upper name)
    | _ => none

def lineNames (line : String) : List String :=
  match tokenize line with
  | .ok ts => namesOf ts
  | .error _ => []

/-- The names that occur in a text. -/
def sourceNames (text : String) : List String := (Text.lines text).flatMap lineNames

/-- Whether plain numbers are decimal on the line that a text leaves open. -/
def decimalAfter (text : String) : Bool := (Text.lines text).dropLast.any lineSetsDecimal

/-- Between two parts of a text the characters spell a number, or a text of one character, that
stands in an expression and has this value. -/
structure IsConstant (before w after : String) (n : Int64) : Prop where
  oneLine : '\n' ∉ w.toList
  token : ∃ ts t, tokenize (Text.openLine before ++ w ++ Text.restOfLine after) = .ok ts ∧
    t ∈ expressionPart ts ∧ t.column = (Text.openLine before).length + 1 ∧
    Spells w.toList t.lexeme ∧ atom (decimalAfter before) t.lexeme = .ok (.number n)

section Tokens

variable {ts : List Token}

theorem mem_namesOf {t : Token} {name : String} (ht : t ∈ ts) (hname : t.lexeme = .ident name) :
    Text.upper name ∈ namesOf ts := by
  unfold namesOf
  rw [List.mem_filterMap]
  exact ⟨t, ht, by rw [hname]⟩

theorem Keyword.expressionPart_suffix (k : Keyword) : k.expressionPart ts <:+ ts := by
  unfold Keyword.expressionPart
  split
  all_goals first
    | exact List.suffix_refl _
    | exact List.drop_suffix _ _
    | exact List.nil_suffix

theorem expressionPart_suffix : expressionPart ts <:+ ts := by
  unfold expressionPart
  split
  · rename_i labels t rest hlabels
    obtain ⟨front, hfront⟩ := Naming.takeLabels_suffix hlabels
    have hrest : rest <:+ ts := ⟨front ++ [t], by rw [hfront, List.append_assoc]; rfl⟩
    split
    · split
      · rename_i after haccept
        refine List.IsSuffix.trans ?_ hrest
        cases rest with
        | nil => cases haccept
        | cons u us =>
          rw [acceptPunct] at haccept
          split_ifs at haccept
          · cases haccept
            exact List.suffix_cons u _
          · cases haccept
      · split_ifs
        · split
          · exact (Keyword.expressionPart_suffix _).trans hrest
          · exact List.nil_suffix
        · exact hrest
    · exact List.nil_suffix
  · exact List.nil_suffix

/-- The tokens before a token of the expression part hold all that stands before that part. -/
theorem skipped_le_front {front rest : List Token} {t : Token}
    (hmem : t ∈ expressionPart (front ++ t :: rest)) (hrest : ∀ u ∈ rest, t.column < u.column) :
    (front ++ t :: rest).length - (expressionPart (front ++ t :: rest)).length ≤ front.length := by
  obtain ⟨skipped, hskipped⟩ := @expressionPart_suffix (front ++ t :: rest)
  generalize expressionPart (front ++ t :: rest) = part at hmem hskipped
  rw [← hskipped, List.length_append, Nat.add_sub_cancel]
  by_contra hlong
  -- otherwise the part would lie behind the token, where the columns are larger
  have hpart : part = rest.drop (skipped.length - (front.length + 1)) := by
    calc part = (skipped ++ part).drop skipped.length := by rw [List.drop_left]
      _ = (front ++ t :: rest).drop skipped.length := by rw [hskipped]
      _ = ((front ++ [t]) ++ rest).drop skipped.length := by rw [List.append_cons]
      _ = rest.drop (skipped.length - (front ++ [t]).length) := by
        rw [List.drop_append, List.drop_eq_nil_of_le (by simp; omega), List.nil_append]
      _ = _ := by rw [List.length_append, List.length_singleton]
  rw [hpart] at hmem
  exact Nat.lt_irrefl _ (hrest t (List.mem_of_mem_drop hmem))

end Tokens

namespace Naming

variable {c : Naming} {decimal : Bool}

section Lines

variable {ts ts' : List Token}

theorem turnsTokens_of_folded (h : ts'.map (·.lexeme.folded) = ts.map (·.lexeme.folded))
    (hfresh : ∀ t ∈ ts, ∀ x, t.lexeme = .ident x → Text.upper x ≠ c.key) :
    c.TurnsTokens decimal ts ts' := by
  induction ts generalizing ts' with
  | nil =>
    obtain rfl := List.map_eq_nil_iff.mp h
    exact .nil
  | cons t ts ih =>
    cases ts' with
    | nil => cases h
    | cons t' ts' =>
      obtain ⟨hhead, htail⟩ := List.cons.inj h
      obtain ⟨hfirst, hmore⟩ := List.forall_mem_cons.mp hfresh
      exact .cons (.kept (Lexeme.sameButCase_iff.mpr hhead) hfirst) (ih htail hmore)

theorem fresh_of_not_mem (h : c.key ∉ namesOf ts) :
    ∀ t ∈ ts, ∀ x, t.lexeme = .ident x → Text.upper x ≠ c.key := by
  intro t ht x hx heq
  apply h
  rw [← heq]
  exact mem_namesOf ht hx

theorem turnsText_of_folded {line line' : String} (hcase : foldedLine line' = foldedLine line)
    (h : c.key ∉ lineNames line) : c.TurnsText decimal line line' := by
  have htokens := matched_tokenize hcase
  unfold lineNames at h
  unfold TurnsText
  generalize tokenize line = x at h htokens ⊢
  generalize tokenize line' = x' at htokens ⊢
  cases htokens with
  | error f f' => exact .error f f'
  | ok hfolded =>
    refine .ok ⟨turnsTokens_of_folded hfolded (fresh_of_not_mem h), fun i _ => ?_⟩
    rw [← List.getElem?_map, hfolded, List.getElem?_map]

/-- The line in which a constant has been replaced by the name. -/
theorem turnsText_replaced {p w q : String} {t : Token} (htokens : tokenize (p ++ w ++ q) = .ok ts)
    (ht : t ∈ expressionPart ts) (hcolumn : t.column = p.length + 1)
    (hw : Spells w.toList t.lexeme) (hatom : atom decimal t.lexeme = .ok (.number c.value))
    (hfresh : c.key ∉ namesOf ts) :
    c.TurnsText decimal (p ++ w ++ q) (p ++ " " ++ c.name ++ " " ++ q) := by
  have hleft : p ++ w ++ q = String.ofList (p.toList ++ (w.toList ++ q.toList)) := by
    rw [← String.toList_inj]
    simp
  have hright : p ++ " " ++ c.name ++ " " ++ q =
      String.ofList (p.toList ++ ' ' :: (c.name.toList ++ ' ' :: q.toList)) := by
    rw [← String.toList_inj]
    simp
  have hscan := htokens
  rw [hleft] at hscan
  obtain ⟨front, rest, t', rest', rfl, hrest, hreplaced, hname, hlexemes⟩ :=
    tokenize_replaced hscan (expressionPart_suffix.subset ht) hcolumn hw c.isName
  rw [String.ofList_toList] at hname
  have hfresh := fresh_of_not_mem hfresh
  obtain ⟨hfront, hbehind⟩ := List.forall_mem_append.mp hfresh
  unfold TurnsText
  rw [htokens, hright, hreplaced]
  refine .ok ⟨?_, fun i hi => ?_⟩
  · have hmore := (List.forall_mem_cons.mp hbehind).2
    have hfolded := congrArg (List.map Lexeme.folded) hlexemes
    rw [List.map_map, List.map_map] at hfolded
    refine List.rel_append (turnsTokens_of_folded rfl hfront) (.cons ?_ ?_)
    · rw [hname]
      exact .named _ hatom
    · exact turnsTokens_of_folded hfolded hmore
  · have hbefore : i < front.length := Nat.lt_of_lt_of_le hi (skipped_le_front ht hrest)
    rw [List.getElem?_append_left hbefore, List.getElem?_append_left hbefore]

theorem turnsLines_of_folded {ls ls' : List String}
    (hcase : ls'.map foldedLine = ls.map foldedLine) (h : ∀ l ∈ ls, c.key ∉ lineNames l) :
    c.TurnsLines decimal ls ls' := by
  induction ls generalizing ls' decimal with
  | nil =>
    obtain rfl := List.map_eq_nil_iff.mp hcase
    exact .nil decimal
  | cons l ls ih =>
    obtain ⟨l', ls', rfl, hline, hlines⟩ := List.map_eq_cons_iff.mp hcase
    obtain ⟨hl, hls⟩ := List.forall_mem_cons.mp h
    exact .cons (turnsText_of_folded hline hl) (ih hlines hls)

/-- One line may turn, in the radix that the lines before it leave in force. -/
theorem turnsLines_replaced {ls₁ ls₂ : List String} {line line' : String}
    (h₁ : ∀ l ∈ ls₁, c.key ∉ lineNames l) (h₂ : ∀ l ∈ ls₂, c.key ∉ lineNames l)
    (hline : c.TurnsText (decimal || ls₁.any lineSetsDecimal) line line') :
    c.TurnsLines decimal (ls₁ ++ line :: ls₂) (ls₁ ++ line' :: ls₂) := by
  induction ls₁ generalizing decimal with
  | nil =>
    rw [List.any_nil, Bool.or_false] at hline
    exact .cons hline (turnsLines_of_folded rfl h₂)
  | cons l ls ih =>
    obtain ⟨hl, hls⟩ := List.forall_mem_cons.mp h₁
    rw [List.any_cons, ← Bool.or_assoc] at hline
    exact .cons (turnsText_of_folded rfl hl) (ih hls hline)

theorem TurnsLines.length_eq {ls ls' : List String} (h : c.TurnsLines decimal ls ls') :
    ls.length = ls'.length := by
  induction h with
  | nil => rfl
  | cons _ _ ih => rw [List.length_cons, List.length_cons, ih]

end Lines

section Texts

variable (c)

/-- The line that defines the name. -/
def definition : String := c.name ++ " = " ++ Text.hexadecimal c.value.toInt.toNat

/-- A text behind the line that defines the name. -/
def defining (text : String) : String := c.definition ++ "\n" ++ text

/-- A text with the name, set off by blanks, between two parts, behind the line that defines it. -/
def replaced (before after : String) : String :=
  c.definition ++ "\n" ++ (before ++ " " ++ c.name ++ " " ++ after)

variable {c} {before w after : String}

theorem spelled_definition : Spelled c.definition.toList
    [.ident c.name, .punct '=', .number (Text.hexadecimal c.value.toInt.toNat)] := by
  obtain ⟨first, tail, hname, hfirst, htail⟩ := c.isName
  have hdigits : ∀ x ∈ 'x' :: Nat.toDigits 16 c.value.toInt.toNat, isNameChar x = true := by
    rw [List.forall_mem_cons]
    constructor
    · decide
    · intro x hx
      exact (Text.isHexadecimal_of_mem_toDigits hx).isNameChar
  have hnumber := Spelled.number (c := '0') ⟨0, by decide, rfl⟩ hdigits breaks_nil .nil
  have hstarts : ∀ cs, startsName first cs = true := fun cs => by
    rw [startsName, hfirst, Bool.true_or]
  have hequation := Spelled.ident (hstarts _) htail (breaks_cons rfl _)
    (.blank (.inl rfl) (.punct (c := '=') (by decide) (.blank (.inl rfl) hnumber)))
  have hline : c.definition.toList = first :: (tail ++ ' ' :: '=' :: ' ' ::
      '0' :: ('x' :: Nat.toDigits 16 c.value.toInt.toNat ++ [])) := by
    unfold definition Text.hexadecimal
    rw [String.toList_append, String.toList_append, hname, String.toList_ofList, List.append_nil]
    simp
  rw [hline]
  rw [← hname, String.ofList_toList] at hequation
  exact hequation

theorem isDotted_key : isDotted c.key = false := by
  obtain ⟨first, tail, hname, hfirst, -⟩ := c.isName
  have hall := of_ascii (p := fun x => !isNameStart x || (Text.upperChar x != '.')) (by decide)
    (toNat_lt_of_isNameStart hfirst)
  rw [hfirst] at hall
  rw [isDotted, key, Text.upper, String.toList_ofList, hname, List.map_cons, List.head?_cons]
  simpa using hall

theorem yields_definition (hvalue : 0 ≤ c.value.toInt) : Yields c.definition fun x =>
    ∃ pos, x = .single ⟨[], ".EQU", pos⟩ (.equate c.key (.int c.value)) := by
  have hsmall : c.value.toInt.toNat < 2 ^ 63 := by
    have hlt := c.value.toInt_lt
    omega
  have hint : Int64.ofNat c.value.toInt.toNat = c.value := by
    rw [← Int64.ofInt_eq_ofNat, Int.toNat_of_nonneg hvalue, Int64.ofInt_toInt]
  have hdecimal : Text.upper c.name ≠ ".DECIMALNUMBERS" := by
    intro h
    have hdotted : isDotted c.key = false := c.isDotted_key
    rw [key, h] at hdotted
    revert hdotted
    decide
  have hatom : IsAtom (.number (Text.hexadecimal c.value.toInt.toNat)) (.int c.value) := by
    refine ⟨by simp, .number c.value, ?_, rfl⟩
    rw [atom, Text.numeral?_hexadecimal false hsmall, hint]
  refine yields_of_named spelled_definition (by simp) hdecimal fun pos ts hts => ?_
  obtain ⟨sign, ts, rfl, hsign, hts⟩ := List.map_eq_cons_iff.mp hts
  obtain ⟨number, ts, rfl, hnumber, hts⟩ := List.map_eq_cons_iff.mp hts
  obtain rfl := List.map_eq_nil_iff.mp hts
  have hexpression : lazyExpression false [number] = .ok (.int c.value, []) := by
    apply lazyExpression_atom
    · rw [hnumber]
      exact hatom
    · exact atEnd_nil.stops
  refine ⟨_, ?_, pos, rfl⟩
  rw [named, acceptPunct_self hsign]
  dsimp only
  rw [equation, hexpression]
  rfl

theorem fresh_of_sourceNames {text : String} (h : c.key ∉ sourceNames text) :
    ∀ l ∈ Text.lines text, c.key ∉ lineNames l := by
  intro l hl hmem
  exact h (List.mem_flatMap.mpr ⟨l, hl, hmem⟩)

theorem turnsLines_text (h : IsConstant before w after c.value)
    (hfresh : c.key ∉ sourceNames (before ++ w ++ after)) :
    c.TurnsLines false (Text.lines (before ++ w ++ after))
      (Text.lines (before ++ " " ++ c.name ++ " " ++ after)) := by
  obtain ⟨ts, t, htokens, ht, hcolumn, hw, hatom⟩ := h.token
  have hlines := @Text.lines_around before w after h.oneLine
    (List.ne_nil_of_length_pos hw.length_pos) hw.getLast?_ne
  have hspaced : Text.lines (before ++ (" " ++ c.name ++ " ") ++ after) =
      (Text.lines before).dropLast ++
        (Text.openLine before ++ (" " ++ c.name ++ " ") ++ Text.restOfLine after) ::
          (Text.lines after).tail := by
    obtain ⟨first, tail, hname, hfirst, htail⟩ := c.isName
    have hinner : ∀ x ∈ c.name.toList, Text.IsInner x := by
      rw [hname, List.forall_mem_cons]
      have hstart : isNameChar first = true := by rw [isNameChar, hfirst, Bool.true_or]
      exact ⟨isNameChar_inner hstart, fun x hx => isNameChar_inner (htail x hx)⟩
    apply Text.lines_around
    · simp only [String.toList_append, List.mem_append, not_or]
      exact ⟨⟨by decide, fun hmem => (hinner _ hmem).1 rfl⟩, by decide⟩
    · simp
    · have hlast : (" " ++ c.name ++ " ").toList.getLast? = some ' ' := by
        rw [String.toList_append, List.getLast?_append]
        rfl
      rw [hlast]
      decide
  have hfresh := fresh_of_sourceNames hfresh
  rw [hlines] at hfresh ⊢
  obtain ⟨hbefore, hfresh⟩ := List.forall_mem_append.mp hfresh
  obtain ⟨hline, hafter⟩ := List.forall_mem_cons.mp hfresh
  rw [lineNames, htokens] at hline
  have hreplaced := turnsText_replaced htokens ht hcolumn hw hatom hline
  simp only [← String.append_assoc] at hspaced
  rw [hspaced]
  exact turnsLines_replaced hbefore hafter hreplaced

/-- The text with the name is read as the definition of the name, then as commands that differ in
the constant only. -/
theorem commands_defining (hvalue : 0 ≤ c.value.toInt) {text text' : String}
    (hturns : c.TurnsLines false (Text.lines text) (Text.lines text')) (file : String) :
    ∃ pos xs, Reader.commands file (c.defining text') =
        .ok (.single ⟨[], ".EQU", pos⟩ (.equate c.key (.int c.value))) :: xs ∧
      List.Forall₂ (Matched c.TurnsCommand) (Reader.commands file text) xs := by
  have hyields := c.yields_definition hvalue
  have hlines := Text.lines_cons hyields.inner text'
  obtain ⟨_, hread, pos, rfl⟩ := hyields.reads file 1
  unfold Reader.commands Reader.ofSource defining
  rw [hlines]
  generalize Text.lines text = ls at hturns
  generalize Text.lines text' = ls' at hturns
  have hnext : Reader.next ⟨file, c.definition :: ls', 0, false⟩ =
      (some (.ok (.single ⟨[], ".EQU", pos⟩ (.equate c.key (.int c.value)))),
        ⟨file, ls', 1, false⟩) := by
    rw [Reader.next, Reader.scan, hread]
  refine ⟨pos, Reader.readAll ls'.length ⟨file, ls', 1, false⟩, ?_, ?_⟩
  · dsimp only
    rw [List.length_cons, Reader.readAll, hnext]
  · dsimp only
    rw [hturns.length_eq]
    apply turns_readAll
    · rfl
    · rfl
    · exact hturns

theorem commands_replaced (hvalue : 0 ≤ c.value.toInt) (h : IsConstant before w after c.value)
    (hfresh : c.key ∉ sourceNames (before ++ w ++ after)) (file : String) :
    ∃ pos xs, Reader.commands file (c.replaced before after) =
        .ok (.single ⟨[], ".EQU", pos⟩ (.equate c.key (.int c.value))) :: xs ∧
      List.Forall₂ (Matched c.TurnsCommand) (Reader.commands file (before ++ w ++ after)) xs :=
  commands_defining hvalue (turnsLines_text h hfresh) file

end Texts

end Naming

end Eleven.Source

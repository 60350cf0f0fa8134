import Eleven.Proofs.Source.Naming

/-! Statements and whole sources in which a constant has been given a name. -/
namespace Eleven.Source

/-- The tokens of a directive among which its expressions stand. -/
def Keyword.expressionPart : Keyword → List Token → List Token
  | .link, ts => ts
  | .reserveBytes, ts => ts
  | .reserveWords, ts => ts
  | .align, ts => ts
  | .bytes, ts => ts
  | .words, ts => ts
  | .repetition, ts => ts
  -- a name and a comma stand first
  | .equate, ts => ts.drop 2
  | _, _ => []

/-- The tokens of a line among which its expressions stand: what follows the sign of an equation,
the arguments of a directive that takes expressions, the operands of an instruction. -/
def expressionPart (ts : List Token) : List Token :=
  match takeLabels ts with
  | .ok (_, t :: rest) =>
    match t.lexeme with
    | .ident name =>
      match acceptPunct '=' rest with
      | (true, after) => after
      | (false, _) =>
        if isDotted (Text.upper name) then
          match Keyword.ofName? (Text.upper name) with
          | some k => k.expressionPart rest
          | none => []
        else rest
    | _ => []
  | _ => []

/-- Operations that hold no expression. -/
def Operation.isPlain : Operation → Bool
  | .instruction _ => false
  | .link _ => false
  | .bytes _ => false
  | .words _ => false
  | .reserveBytes _ => false
  | .reserveWords _ => false
  | .align _ => false
  | .equate _ _ => false
  | _ => true

namespace Naming

variable (c : Naming)

/-- Headers of the same command, maybe at different places. -/
structure TurnsHeader (h h' : Header) : Prop where
  labels : h'.labels = h.labels
  fresh : ∀ name ∈ h.labels, name ≠ c.key
  mnemonic : h'.mnemonic = h.mnemonic

inductive TurnsOperation : Operation → Operation → Prop
  | plain {o : Operation} (h : o.isPlain = true) : TurnsOperation o o
  | instruction {os os' : List Operand} (h : List.Forall₂ c.TurnsOperand os os') :
    TurnsOperation (.instruction os) (.instruction os')
  | link {v v' : Lazy} (h : c.SameInt v v') : TurnsOperation (.link v) (.link v')
  | bytes {vs vs' : List Lazy} (h : List.Forall₂ c.SameInt vs vs') :
    TurnsOperation (.bytes vs) (.bytes vs')
  | words {vs vs' : List Lazy} (h : List.Forall₂ c.SameInt vs vs') :
    TurnsOperation (.words vs) (.words vs')
  | reserveBytes {v v' : Lazy} (h : c.SameInt v v') :
    TurnsOperation (.reserveBytes v) (.reserveBytes v')
  | reserveWords {v v' : Lazy} (h : c.SameInt v v') :
    TurnsOperation (.reserveWords v) (.reserveWords v')
  | align {v v' : Lazy} (h : c.SameInt v v') : TurnsOperation (.align v) (.align v')
  | equate {name : String} (hname : name ≠ c.key) {v v' : Lazy} (h : c.SameInt v v') :
    TurnsOperation (.equate name v) (.equate name v')

inductive TurnsCommand : Command → Command → Prop
  | single {h h' : Header} {o o' : Operation} (hh : c.TurnsHeader h h')
    (ho : c.TurnsOperation o o') : TurnsCommand (.single h o) (.single h' o')
  | repetition {h h' : Header} {count count' : Lazy} {body body' : List Command}
    (hh : c.TurnsHeader h h') (hcount : c.SameInt count count')
    (hbody : List.Forall₂ TurnsCommand body body') :
    TurnsCommand (.repetition h count body) (.repetition h' count' body')

inductive TurnsStatement : Statement → Statement → Prop
  | command {x x' : Command} (h : c.TurnsCommand x x') : TurnsStatement (.command x) (.command x')
  | opening {h h' : Header} {count count' : Lazy} (hh : c.TurnsHeader h h')
    (hcount : c.SameInt count count') (braced : Bool) :
    TurnsStatement (.opening h count braced) (.opening h' count' braced)

/-- Tokens of a line in which constants have become names in expressions only. The others may differ
in the case of letters. -/
structure TurnsLine (decimal : Bool) (ts ts' : List Token) : Prop where
  tokens : c.TurnsTokens decimal ts ts'
  kept : ∀ i < ts.length - (expressionPart ts).length,
    ts'[i]?.map (·.lexeme.folded) = ts[i]?.map (·.lexeme.folded)

section Statements

variable {c} {decimal : Bool} {ts ts' : List Token}

theorem folded_eq (h : c.TurnsTokens decimal ts ts')
    (hkept : ∀ i < ts.length, ts'[i]?.map (·.lexeme.folded) = ts[i]?.map (·.lexeme.folded)) :
    ts'.map (·.lexeme.folded) = ts.map (·.lexeme.folded) := by
  refine List.ext_getElem? fun i => ?_
  rw [List.getElem?_map, List.getElem?_map]
  by_cases hi : i < ts.length
  · exact hkept i hi
  · have hlength := h.length_eq
    rw [List.getElem?_eq_none (by omega), List.getElem?_eq_none (by omega)]

theorem TurnsLine.folded_eq (h : c.TurnsLine decimal ts ts') (hpart : expressionPart ts = []) :
    ts'.map (·.lexeme.folded) = ts.map (·.lexeme.folded) := by
  refine Naming.folded_eq h.tokens fun i hi => h.kept i ?_
  rw [hpart]
  exact hi

theorem takeLabels_suffix {labels : List String} {after : List Token}
    (h : takeLabels ts = .ok (labels, after)) : ∃ front, ts = front ++ after := by
  fun_induction takeLabels ts generalizing labels with
  | case1 => cases h
  | case2 t colon rest name _ _ _ ih =>
    obtain ⟨⟨labels, after⟩, hrest, h⟩ := bind_eq_ok.mp h
    cases h
    obtain ⟨front, rfl⟩ := ih hrest
    exact ⟨t :: colon :: front, rfl⟩
  | case3 =>
    cases h
    exact ⟨[], rfl⟩
  | case4 =>
    cases h
    exact ⟨[], rfl⟩
  | case5 =>
    cases h
    exact ⟨[], rfl⟩

/-- Labels, and what follows them. -/
structure TurnsLabels (c : Naming) (decimal : Bool) (r r' : List String × List Token) : Prop where
  labels : r'.1 = r.1
  fresh : ∀ name ∈ r.1, name ≠ c.key
  rest : c.TurnsTokens decimal r.2 r'.2
  first : r'.2.head?.map (·.lexeme.folded) = r.2.head?.map (·.lexeme.folded)

/-- Labels are never constants, so they are the same on both lines. What follows them must be a name
too, or have stayed as it was: a constant that becomes a name could be taken for a label. -/
theorem matched_takeLabels (h : c.TurnsTokens decimal ts ts')
    (hstop : (∀ labels t rest, takeLabels ts = .ok (labels, t :: rest) →
      ∃ x, t.lexeme = .ident x) ∨ ts'.map (·.lexeme.folded) = ts.map (·.lexeme.folded)) :
    Matched (c.TurnsLabels decimal) (takeLabels ts) (takeLabels ts') := by
  fun_induction takeLabels ts generalizing ts' with
  | case1 t colon rest name hname hcolon hreg =>
    obtain _ | ⟨ht, _ | ⟨hcolon', hrest⟩⟩ := h
    obtain ⟨name', hname', hsame, -⟩ := ht.of_ident hname
    have hpunct := (hcolon'.punct_iff ':').mp hcolon.1
    unfold takeLabels
    simp only [hname', hpunct, hsame.isDotted, hcolon.2, hsame.register, hreg, and_self, if_true]
    exact .error _ _
  | case2 t colon rest name hname hcolon hreg ih =>
    obtain _ | ⟨ht, _ | ⟨hcolon', hrest⟩⟩ := h
    obtain ⟨name', hname', hsame, hfresh⟩ := ht.of_ident hname
    have hpunct := (hcolon'.punct_iff ':').mp hcolon.1
    conv => arg 3; unfold takeLabels
    simp only [hname', hpunct, hsame.isDotted, hcolon.2, hsame.register, hsame.upper, hreg,
      and_self, if_true, Bool.false_eq_true, if_false]
    refine (ih hrest ?_).bind ?_
    · rcases hstop with hstop | hsame
      · left
        intro labels t rest hlabels
        refine hstop (Text.upper name :: labels) t rest ?_
        rw [hlabels]
        rfl
      · right
        exact (List.cons.inj (List.cons.inj hsame).2).2
    · rintro ⟨labels, after⟩ ⟨labels', after'⟩ ⟨hlabels, hall, hafter, hfirst⟩
      refine .ok ⟨?_, ?_, hafter, hfirst⟩
      · exact congrArg (Text.upper name :: ·) hlabels
      · exact List.forall_mem_cons.mpr ⟨hfresh, hall⟩
  | case3 t colon rest name hname hcolon =>
    obtain _ | ⟨ht, _ | ⟨hcolon', hrest⟩⟩ := h
    obtain ⟨name', hname', hsame, -⟩ := ht.of_ident hname
    rw [hcolon'.punct_iff ':'] at hcolon
    unfold takeLabels
    simp only [hname', hsame.isDotted, hcolon, if_false]
    exact .ok ⟨rfl, by simp, .cons ht (.cons hcolon' hrest), congrArg some (ht.folded_eq hname)⟩
  | case4 t colon rest hname =>
    obtain _ | ⟨ht, _ | ⟨hcolon', hrest⟩⟩ := h
    rcases hstop with hstop | hsame
    · obtain ⟨x, hx⟩ := hstop _ _ _ rfl
      exact absurd hx (hname x)
    · have hfolded := (List.cons.inj hsame).1
      have hcase := Lexeme.sameButCase_iff.mpr hfolded
      unfold takeLabels
      split
      · rename_i x hx
        rw [hx] at hcase
        generalize hl : t.lexeme = l at hcase
        cases hcase
        exact absurd hl (hname _)
      · exact .ok ⟨rfl, by simp, .cons ht (.cons hcolon' hrest), congrArg some hfolded⟩
  | case5 ts hts =>
    cases h with
    | nil => exact .ok ⟨rfl, by simp, .nil, rfl⟩
    | cons ht h =>
      cases h with
      | cons => exact absurd rfl (hts _ _ _)
      | nil =>
        refine .ok ⟨rfl, by simp, .cons ht .nil, congrArg some ?_⟩
        rcases hstop with hstop | hsame
        · obtain ⟨x, hx⟩ := hstop _ _ _ rfl
          exact ht.folded_eq hx
        · exact (List.cons.inj hsame).1

/-- Where a line starts with a name after its labels, or holds no expression at all, its labels and
what follows them are found on both lines. -/
theorem TurnsLine.takeLabels (h : c.TurnsLine decimal ts ts') :
    Matched (c.TurnsLabels decimal) (takeLabels ts) (takeLabels ts') := by
  refine matched_takeLabels h.tokens ?_
  by_cases hstop : ∀ labels t rest, Source.takeLabels ts = .ok (labels, t :: rest) →
      ∃ x, t.lexeme = .ident x
  · exact .inl hstop
  · right
    simp only [not_forall] at hstop
    obtain ⟨labels, t, rest, hlabels, hident⟩ := hstop
    refine h.folded_eq ?_
    rw [expressionPart, hlabels]
    dsimp only
    split
    · rename_i x hx
      exact absurd ⟨x, hx⟩ hident
    · rfl

section Arguments

variable (h : c.TurnsTokens decimal ts ts')
include h

section First

variable (hfirst : ts'.head?.map (·.lexeme.folded) = ts.head?.map (·.lexeme.folded))
include hfirst

theorem matched_expectText :
    Matched (c.Reads decimal Eq) (expectText ts) (expectText ts') := by
  cases h with
  | nil => exact .error _ _
  | @cons t t' _ _ ht hts =>
    have hcase := Lexeme.sameButCase_iff.mpr (Option.some.inj hfirst)
    unfold expectText
    dsimp only
    generalize t.lexeme = l at hcase ⊢
    generalize t'.lexeme = l' at hcase ⊢
    cases hcase with
    | text s => exact .ok ⟨rfl, hts⟩
    | _ => exact .error _ _

theorem reads_optionalText : c.Reads decimal Eq (optionalText ts) (optionalText ts') := by
  cases h with
  | nil => exact ⟨rfl, .nil⟩
  | @cons t t' _ _ ht hts =>
    have hcase := Lexeme.sameButCase_iff.mpr (Option.some.inj hfirst)
    unfold optionalText
    dsimp only
    generalize t.lexeme = l at hcase ⊢
    generalize t'.lexeme = l' at hcase ⊢
    cases hcase with
    | text s => exact ⟨rfl, hts⟩
    | _ => exact ⟨rfl, .cons ht hts⟩

theorem matched_expectDialect :
    Matched (c.Reads decimal Eq) (expectDialect ts) (expectDialect ts') := by
  cases h with
  | nil => exact .error _ _
  | @cons t t' _ _ ht hts =>
    have hcase := Lexeme.sameButCase_iff.mpr (Option.some.inj hfirst)
    unfold expectDialect
    dsimp only
    generalize t.lexeme = l at hcase ⊢
    generalize t'.lexeme = l' at hcase ⊢
    cases hcase with
    | @ident name name' hlower =>
      have hdialect : name.toList.map Text.lowerCase = name'.toList.map Text.lowerCase := by
        rw [← Text.map_lower Text.lowerCase_toLower name, ← hlower,
          Text.map_lower Text.lowerCase_toLower]
      exact .ok ⟨congrArg String.ofList hdialect, hts⟩
    | text s => exact .ok ⟨rfl, hts⟩
    | _ => exact .error _ _

theorem matched_expectName :
    Matched (c.Reads decimal fun s s' => s' = s ∧ s ≠ c.key) (expectName ts) (expectName ts') := by
  cases h with
  | nil => exact .error _ _
  | @cons t t' _ _ ht hts =>
    have hcase := Lexeme.sameButCase_iff.mpr (Option.some.inj hfirst)
    unfold expectName
    dsimp only
    cases hl : t.lexeme with
    | ident name =>
      obtain ⟨name', hl', hsame, hfresh⟩ := ht.of_ident hl
      rw [hl']
      exact .ok ⟨⟨hsame.upper, hfresh⟩, hts⟩
    | _ =>
      rw [hl] at hcase
      generalize t'.lexeme = l' at hcase
      cases hcase
      exact .error _ _

end First

/-- The arguments of a directive. A text or a name that stands outside expressions has to be the
same on both lines. -/
theorem matched_expressionArgument {f : Lazy → Operation}
    (hf : ∀ {v v' : Lazy}, c.SameInt v v' → c.TurnsOperation (f v) (f v')) :
    Matched (c.Reads decimal c.TurnsOperation)
      (lazyExpression decimal ts >>= fun r => .ok (f r.1, r.2))
      (lazyExpression decimal ts' >>= fun r => .ok (f r.1, r.2)) := by
  refine (matched_lazyExpression h).bind ?_
  rintro ⟨v, rest⟩ ⟨v', rest'⟩ ⟨hv, hrest⟩
  exact .ok ⟨hf hv, hrest⟩

theorem matched_listArgument {f : List Lazy → Operation}
    (hf : ∀ {vs vs' : List Lazy}, List.Forall₂ c.SameInt vs vs' →
      c.TurnsOperation (f vs) (f vs')) :
    Matched (c.Reads decimal c.TurnsOperation)
      (expressionList decimal (ts.length + 1) ts >>= fun r => .ok (f r.1, r.2))
      (expressionList decimal (ts'.length + 1) ts' >>= fun r => .ok (f r.1, r.2)) := by
  rw [h.length_eq]
  refine (matched_expressionList _ h).bind ?_
  rintro ⟨vs, rest⟩ ⟨vs', rest'⟩ ⟨hvs, hrest⟩
  exact .ok ⟨hf hvs, hrest⟩

theorem matched_textArgument {f : String → Operation} (hf : ∀ s, (f s).isPlain = true)
    (hfirst : ts'.head?.map (·.lexeme.folded) = ts.head?.map (·.lexeme.folded)) :
    Matched (c.Reads decimal c.TurnsOperation)
      (expectText ts >>= fun r => .ok (f r.1, r.2))
      (expectText ts' >>= fun r => .ok (f r.1, r.2)) := by
  refine (matched_expectText h hfirst).bind ?_
  rintro ⟨s, rest⟩ ⟨_, rest'⟩ ⟨rfl, hrest⟩
  exact .ok ⟨.plain (hf s), hrest⟩

theorem matched_arguments (k : Keyword)
    (hkept : ∀ i < ts.length - (k.expressionPart ts).length,
      ts'[i]?.map (·.lexeme.folded) = ts[i]?.map (·.lexeme.folded)) :
    Matched (c.Reads decimal c.TurnsOperation) (arguments decimal k ts)
      (arguments decimal k ts') := by
  have hfirst : (k.expressionPart ts).length ≤ ts.length - 1 →
      ts'.head?.map (·.lexeme.folded) = ts.head?.map (·.lexeme.folded) := by
    intro hpart
    cases h with
    | nil => rfl
    | cons ht hts => exact hkept 0 (by simp at hpart ⊢; omega)
  cases k with
  | link => exact matched_expressionArgument h .link
  | reserveBytes => exact matched_expressionArgument h .reserveBytes
  | reserveWords => exact matched_expressionArgument h .reserveWords
  | align => exact matched_expressionArgument h .align
  | bytes => exact matched_listArgument h .bytes
  | words => exact matched_listArgument h .words
  | includeFile => exact matched_textArgument h (fun _ => rfl) (hfirst (Nat.zero_le _))
  | insertFile => exact matched_textArgument h (fun _ => rfl) (hfirst (Nat.zero_le _))
  | ascii => exact matched_textArgument h (fun _ => rfl) (hfirst (Nat.zero_le _))
  | asciz => exact matched_textArgument h (fun _ => rfl) (hfirst (Nat.zero_le _))
  | makeRaw =>
    obtain ⟨htext, hrest⟩ := reads_optionalText h (hfirst (Nat.zero_le _))
    rw [arguments, arguments, ← htext]
    exact .ok ⟨.plain rfl, hrest⟩
  | makeBin =>
    obtain ⟨htext, hrest⟩ := reads_optionalText h (hfirst (Nat.zero_le _))
    rw [arguments, arguments, ← htext]
    exact .ok ⟨.plain rfl, hrest⟩
  | dialect =>
    refine (matched_expectDialect h (hfirst (Nat.zero_le _))).bind ?_
    rintro ⟨s, rest⟩ ⟨_, rest'⟩ ⟨rfl, hrest⟩
    exact .ok ⟨.plain rfl, hrest⟩
  | equate =>
    have hpart : (Keyword.equate.expressionPart ts).length ≤ ts.length - 1 := by
      rw [Keyword.expressionPart, List.length_drop]
      omega
    refine (matched_expectName h (hfirst hpart)).bind ?_
    rintro ⟨name, rest⟩ ⟨_, rest'⟩ ⟨⟨rfl, hname⟩, hrest⟩
    refine (matched_expectPunct ',' hrest).bind ?_
    intro rest rest' hrest
    refine (matched_lazyExpression hrest).bind ?_
    rintro ⟨v, rest⟩ ⟨v', rest'⟩ ⟨hv, hrest⟩
    exact .ok ⟨.equate hname hv, hrest⟩
  | thisMachine => exact .ok ⟨.plain rfl, h⟩
  | otherMachine => exact .ok ⟨.plain rfl, h⟩
  | endOfSource => exact .ok ⟨.plain rfl, h⟩
  | even => exact .ok ⟨.plain rfl, h⟩
  | koi8r => exact .ok ⟨.plain rfl, h⟩
  | decimalNumbers => exact .ok ⟨.plain rfl, h⟩
  | repetition => exact .ok ⟨.plain rfl, h⟩

theorem matched_blockHead :
    Matched (fun r r' => c.SameInt r.1 r'.1 ∧ r'.2 = r.2) (blockHead decimal ts)
      (blockHead decimal ts') := by
  unfold blockHead
  refine (matched_lazyExpression h).bind ?_
  rintro ⟨v, rest⟩ ⟨v', rest'⟩ ⟨hv, hrest⟩
  obtain ⟨found, more, more', hmore, hmore', hturns⟩ := acceptPunct_turns '\x7b' hrest
  dsimp only
  rw [hmore, hmore']
  cases found with
  | true =>
    cases hturns with
    | nil => exact .ok ⟨hv, rfl⟩
    | cons => exact .error _ _
  | false =>
    cases hturns with
    | nil => exact .ok ⟨hv, rfl⟩
    | cons => exact .error _ _

theorem matched_finished {o o' : Operation} (ho : c.TurnsOperation o o') :
    Matched c.TurnsOperation (finished (o, ts)) (finished (o', ts')) := by
  cases h with
  | nil => exact .ok ho
  | cons => exact .error _ _

variable {head head' : Header} (hhead : c.TurnsHeader head head')
include hhead

theorem matched_directive (k : Keyword)
    (hkept : ∀ i < ts.length - (k.expressionPart ts).length,
      ts'[i]?.map (·.lexeme.folded) = ts[i]?.map (·.lexeme.folded)) :
    Matched c.TurnsStatement (directive decimal head k ts) (directive decimal head' k ts') := by
  have hargs : Matched c.TurnsOperation (arguments decimal k ts >>= finished)
      (arguments decimal k ts' >>= finished) := by
    refine (matched_arguments h k hkept).bind ?_
    rintro ⟨o, rest⟩ ⟨o', rest'⟩ ⟨ho, hrest⟩
    exact matched_finished hrest ho
  have hblock := matched_blockHead h
  unfold directive
  split
  · generalize blockHead decimal ts = x at hblock ⊢
    generalize blockHead decimal ts' = x' at hblock ⊢
    cases hblock with
    | error => exact .error _ _
    | @ok r r' hr =>
      obtain ⟨v, braced⟩ := r
      obtain ⟨v', braced'⟩ := r'
      obtain ⟨hv, rfl⟩ := hr
      exact .ok (.opening hhead hv _)
  · generalize arguments decimal k ts >>= finished = x at hargs ⊢
    generalize arguments decimal k ts' >>= finished = x' at hargs ⊢
    cases hargs with
    | error => exact .error _ _
    | ok ho => exact .ok (.command (.single hhead ho))

theorem matched_equation {name : String} (hname : name ≠ c.key) :
    Matched c.TurnsStatement (equation decimal head name ts) (equation decimal head' name ts') := by
  unfold equation
  refine (matched_lazyExpression h).bind ?_
  rintro ⟨v, rest⟩ ⟨v', rest'⟩ ⟨hv, hrest⟩
  have hfinished := matched_finished hrest (.equate hname hv)
  dsimp only
  generalize finished (.equate name v, rest) = x at hfinished ⊢
  generalize finished (.equate name v', rest') = x' at hfinished ⊢
  cases hfinished with
  | error => exact .error _ _
  | ok ho => exact .ok (.command (.single hhead ho))

theorem matched_instruction :
    Matched c.TurnsStatement (instruction decimal head ts) (instruction decimal head' ts') := by
  unfold instruction
  rw [hhead.mnemonic]
  refine (matched_operands _ h).bind ?_
  intro os os' hos
  exact .ok (.command (.single hhead (.instruction hos)))

end Arguments

/-- A command that starts with a name. -/
theorem matched_named (h : c.TurnsTokens decimal ts ts') {labels : List String}
    (hlabels : ∀ l ∈ labels, l ≠ c.key) {name : String} (hname : name ≠ c.key)
    (hkept : (acceptPunct '=' ts).1 = false → isDotted name = true →
      ∀ k, Keyword.ofName? name = some k → ∀ i < ts.length - (k.expressionPart ts).length,
        ts'[i]?.map (·.lexeme.folded) = ts[i]?.map (·.lexeme.folded)) (pos pos' : Position) :
    Matched c.TurnsStatement (named decimal labels pos name ts)
      (named decimal labels pos' name ts') := by
  have hheader : ∀ mnemonic, c.TurnsHeader ⟨labels, mnemonic, pos⟩ ⟨labels, mnemonic, pos'⟩ :=
    fun mnemonic => ⟨rfl, hlabels, rfl⟩
  obtain ⟨found, rest, rest', hrest, hrest', hturns⟩ := acceptPunct_turns '=' h
  rw [hrest] at hkept
  unfold named
  rw [hrest, hrest']
  cases found with
  | true => exact (matched_equation hturns (hheader _) hname).mapError _ _
  | false =>
    dsimp only
    by_cases hdot : isDotted name = true
    · rw [if_pos hdot, if_pos hdot]
      cases hk : Keyword.ofName? name with
      | none => exact .error _ _
      | some k =>
        exact (matched_directive h (hheader _) k (hkept rfl hdot k hk)).mapError _ _
    · rw [if_neg hdot, if_neg hdot]
      exact (matched_instruction h (hheader _)).mapError _ _

/-- Statements: which of the tokens count as parts of expressions is decided the same way as the
statement is read. -/
theorem TurnsLine.statement (h : c.TurnsLine decimal ts ts') (pos pos' : Position) :
    Matched c.TurnsStatement (statement decimal pos ts) (statement decimal pos' ts') := by
  have hlabels := h.takeLabels
  unfold Source.statement
  generalize hts : Source.takeLabels ts = r at hlabels ⊢
  generalize hts' : Source.takeLabels ts' = r' at hlabels ⊢
  cases hlabels with
  | error => exact .error _ _
  | @ok r r' hr =>
    obtain ⟨labels, after⟩ := r
    obtain ⟨labels', after'⟩ := r'
    obtain ⟨rfl, hfresh, hafter, hfirst⟩ := hr
    cases hafter with
    | nil => exact .ok (.command (.single ⟨rfl, hfresh, rfl⟩ (.plain rfl)))
    | @cons t t' rest rest' ht hrest =>
      have hcase := Lexeme.sameButCase_iff.mpr (Option.some.inj hfirst)
      dsimp only
      cases hl : t.lexeme with
      | ident name =>
        obtain ⟨name', hl', hsame, hname⟩ := ht.of_ident hl
        rw [hl']
        dsimp only
        rw [hsame.upper]
        refine matched_named hrest hfresh hname ?_ _ _
        intro hequation hdot k hk i hi
        have hpart : expressionPart ts = k.expressionPart rest := by
          rw [expressionPart, hts]
          rcases hsign : acceptPunct '=' rest with ⟨found, more⟩
          rw [hsign] at hequation
          cases hequation
          simp only [hl, hsign, hdot, if_true, hk]
        obtain ⟨front, hfront⟩ := takeLabels_suffix hts
        obtain ⟨front', hfront'⟩ := takeLabels_suffix hts'
        have hlength : front'.length = front.length := by
          have htotal := h.tokens.length_eq
          have hbehind := hrest.length_eq
          rw [hfront, hfront', List.length_append, List.length_append] at htotal
          simp only [List.length_cons] at htotal
          omega
        have hindex : ∀ (xs : List Token) (x : Token) (ys : List Token),
            (xs ++ x :: ys)[xs.length + (i + 1)]? = ys[i]? := by
          intro xs x ys
          rw [List.getElem?_append_right (by omega), Nat.add_sub_cancel_left,
            List.getElem?_cons_succ]
        have hkept := h.kept (front.length + (i + 1)) (by
          rw [hpart, hfront, List.length_append, List.length_cons]
          omega)
        rwa [hfront, hindex, hfront', ← hlength, hindex] at hkept
      | _ =>
        rw [hl] at hcase
        generalize t'.lexeme = l' at hcase ⊢
        cases hcase
        exact .error _ _

theorem TurnsLine.setsDecimal (h : c.TurnsLine decimal ts ts') :
    setsDecimal ts' = setsDecimal ts := by
  have hlabels := h.takeLabels
  unfold Source.setsDecimal
  generalize Source.takeLabels ts = r at hlabels ⊢
  generalize Source.takeLabels ts' = r' at hlabels ⊢
  cases hlabels with
  | error => rfl
  | @ok r r' hr =>
    obtain ⟨labels, after⟩ := r
    obtain ⟨labels', after'⟩ := r'
    obtain ⟨rfl, -, hafter, hfirst⟩ := hr
    cases hafter with
    | nil => rfl
    | @cons t t' rest rest' ht hrest =>
      have hcase := Lexeme.sameButCase_iff.mpr (Option.some.inj hfirst)
      obtain ⟨found, after, after', hfound, hfound', -⟩ := acceptPunct_turns '=' hrest
      dsimp only
      rw [hfound, hfound']
      generalize t.lexeme = l at hcase ⊢
      generalize t'.lexeme = l' at hcase ⊢
      cases hcase with
      | ident hlower =>
        dsimp only
        rw [(sameName_of_lower hlower).upper]
      | _ => rfl

end Statements

end Naming

/-- Whether a line makes plain numbers decimal. -/
def lineSetsDecimal (line : String) : Bool :=
  match tokenize line with
  | .ok ts => setsDecimal ts
  | .error _ => false

namespace Naming

variable (c : Naming)

/-- Lines in which constants have become names in expressions, or that both cannot be cut into
tokens. -/
abbrev TurnsText (decimal : Bool) (line line' : String) : Prop :=
  Matched (c.TurnsLine decimal) (tokenize line) (tokenize line')

/-- The lines of a source, each in the radix in force. -/
inductive TurnsLines : Bool → List String → List String → Prop
  | nil (decimal : Bool) : TurnsLines decimal [] []
  | cons {decimal : Bool} {line line' : String} {rest rest' : List String}
    (h : c.TurnsText decimal line line')
    (hrest : TurnsLines (decimal || lineSetsDecimal line) rest rest') :
    TurnsLines decimal (line :: rest) (line' :: rest')

inductive TurnsReading : LineReading → LineReading → Prop
  | empty : TurnsReading .empty .empty
  | closing (pos pos' : Position) : TurnsReading (.closing pos) (.closing pos')
  | statement {s s' : Statement} (h : c.TurnsStatement s s') :
    TurnsReading (.statement s) (.statement s')
  | failed (e e' : Failure) : TurnsReading (.failed e) (.failed e')

structure TurnsBlock (b b' : OpenBlock) : Prop where
  header : c.TurnsHeader b.header b'.header
  count : c.SameInt b.count b'.count
  body : List.Forall₂ c.TurnsCommand b.body b'.body

/-- Results of reading, and readers that go on with related lines. -/
structure TurnsResult (r r' : Reader.Result) : Prop where
  command : Option.Rel (Matched c.TurnsCommand) r.1 r'.1
  file : r'.2.file = r.2.file
  decimal : r'.2.decimal = r.2.decimal
  lines : c.TurnsLines r.2.decimal r.2.lines r'.2.lines

section Reading

variable {c} {decimal : Bool} {line line' : String}

theorem TurnsLine.readTokens {ts ts' : List Token} (h : c.TurnsLine decimal ts ts')
    (pos pos' : Position) :
    c.TurnsReading (Reader.readTokens decimal pos ts) (Reader.readTokens decimal pos' ts') := by
  have htokens := h.tokens
  cases htokens with
  | nil => exact .empty
  | @cons t t' rest rest' ht hrest =>
    have hnil : rest' = [] ↔ rest = [] := by
      rw [← List.length_eq_zero_iff, ← List.length_eq_zero_iff, hrest.length_eq]
    unfold Reader.readTokens
    simp only [← ht.punct_iff, hnil]
    split_ifs
    · exact .closing _ _
    · have hstatement := h.statement { pos with column := (t.column : Int) }
        { pos' with column := (t'.column : Int) }
      generalize Source.statement decimal _ (t :: rest) = x at hstatement ⊢
      generalize Source.statement decimal _ (t' :: rest') = x' at hstatement ⊢
      cases hstatement with
      | ok h => exact .statement h
      | error => exact .failed _ _

theorem readLine_turns (h : c.TurnsText decimal line line') (file : String) (number number' : Nat) :
    ∃ r r', Reader.readLine file decimal number line = (r, decimal || lineSetsDecimal line) ∧
      Reader.readLine file decimal number' line' = (r', decimal || lineSetsDecimal line) ∧
      c.TurnsReading r r' := by
  unfold TurnsText at h
  unfold Reader.readLine lineSetsDecimal
  generalize tokenize line = x at h ⊢
  generalize tokenize line' = x' at h ⊢
  cases h with
  | error => exact ⟨_, _, by rw [Bool.or_false], by rw [Bool.or_false], .failed _ _⟩
  | ok h =>
    have hreading := h.readTokens (Reader.linePosition file number line)
      (Reader.linePosition file number' line')
    refine ⟨_, _, rfl, ?_, hreading⟩
    dsimp only
    rw [h.setsDecimal]

/-- Looking for the opening brace of a block sets no radix. -/
theorem braceLine_turns (h : c.TurnsText decimal line line') :
    (Reader.braceLine line = .empty ∧ Reader.braceLine line' = .empty ∧
        lineSetsDecimal line = false) ∨
      (Reader.braceLine line = .brace ∧ Reader.braceLine line' = .brace ∧
        lineSetsDecimal line = false) ∨
      (Reader.braceLine line = .other ∧ Reader.braceLine line' = .other) ∨
      ∃ f f', Reader.braceLine line = .failed f ∧ Reader.braceLine line' = .failed f' := by
  unfold TurnsText at h
  unfold Reader.braceLine lineSetsDecimal
  generalize tokenize line = x at h ⊢
  generalize tokenize line' = x' at h ⊢
  cases h with
  | error f f' => exact .inr (.inr (.inr ⟨f, f', rfl, rfl⟩))
  | ok h =>
    have htokens := h.tokens
    cases htokens with
    | nil => exact .inl ⟨rfl, rfl, rfl⟩
    | @cons t t' rest rest' ht hrest =>
      cases hrest with
      | cons => exact .inr (.inr (.inl ⟨rfl, rfl⟩))
      | nil =>
        by_cases hbrace : t.lexeme = .punct '\x7b'
        · have hbrace' := (ht.punct_iff _).mp hbrace
          refine .inr (.inl ⟨if_pos hbrace, if_pos hbrace', ?_⟩)
          simp only [Source.setsDecimal, takeLabels, hbrace]
        · have hbrace' : t'.lexeme ≠ .punct '\x7b' := fun hb => hbrace ((ht.punct_iff _).mpr hb)
          exact .inr (.inr (.inl ⟨if_neg hbrace, if_neg hbrace'⟩))

theorem TurnsBlock.push {b b' : OpenBlock} (h : c.TurnsBlock b b') {x x' : Command}
    (hx : c.TurnsCommand x x') : c.TurnsBlock (b.push x) (b'.push x') :=
  ⟨h.header, h.count, .cons hx h.body⟩

theorem TurnsBlock.close {b b' : OpenBlock} (h : c.TurnsBlock b b') :
    c.TurnsCommand b.close b'.close :=
  .repetition h.header h.count (List.rel_reverse h.body)

theorem turns_fail {pos pos' : Position} {x x' : Complaint} {file : String} {taken taken' : Nat}
    {lines lines' : List String} (h : c.TurnsLines decimal lines lines') :
    c.TurnsResult (Reader.fail pos x ⟨file, lines, taken, decimal⟩)
      (Reader.fail pos' x' ⟨file, lines', taken', decimal⟩) :=
  ⟨.some (.error _ _), rfl, rfl, h⟩

/-- Reading on to the end of a command takes the same lines from both sources: the induction is on
the lines, and the open blocks stay related. -/
theorem turns_scan (file : String) {lines lines' : List String}
    (h : c.TurnsLines decimal lines lines') {blocks blocks' : List OpenBlock}
    (hblocks : List.Forall₂ c.TurnsBlock blocks blocks') {wanted wanted' : Option OpenBlock}
    (hwanted : Option.Rel c.TurnsBlock wanted wanted') (taken taken' : Nat) :
    c.TurnsResult (Reader.scan file blocks wanted decimal taken lines)
      (Reader.scan file blocks' wanted' decimal taken' lines') := by
  induction h generalizing blocks blocks' wanted wanted' taken taken' with
  | nil decimal =>
    cases hwanted with
    | some =>
      rw [Reader.scan, Reader.scan]
      exact turns_fail (.nil _)
    | none =>
      cases hblocks with
      | nil => exact ⟨.none, rfl, rfl, .nil _⟩
      | cons =>
        rw [Reader.scan, Reader.scan]
        exact turns_fail (.nil _)
  | @cons decimal line line' rest rest' hline hrest ih =>
    cases hwanted with
    | some hb =>
      rw [Reader.scan, Reader.scan]
      rcases braceLine_turns hline with ⟨h, h', hsets⟩ | ⟨h, h', hsets⟩ | ⟨h, h'⟩ | ⟨f, f', h, h'⟩
      · rw [h, h']
        rw [hsets, Bool.or_false] at ih
        exact ih hblocks (.some hb) _ _
      · rw [h, h']
        rw [hsets, Bool.or_false] at ih
        exact ih (.cons hb hblocks) .none _ _
      · rw [h, h']
        exact turns_fail (.cons hline hrest)
      · rw [h, h']
        exact turns_fail (.cons hline hrest)
    | none =>
      obtain ⟨r, r', hread, hread', hr⟩ := readLine_turns hline file (taken + 1) (taken' + 1)
      rw [Reader.scan, Reader.scan, hread, hread']
      cases hr with
      | empty => exact ih hblocks .none _ _
      | failed => exact ⟨.some (.error _ _), rfl, rfl, hrest⟩
      | closing =>
        cases hblocks with
        | nil => exact turns_fail hrest
        | cons hb hblocks =>
          cases hblocks with
          | nil => exact ⟨.some (.ok hb.close), rfl, rfl, hrest⟩
          | cons houter hmore => exact ih (.cons (houter.push hb.close) hmore) .none _ _
      | statement hs =>
        cases hs with
        | command hx =>
          cases hblocks with
          | nil => exact ⟨.some (.ok hx), rfl, rfl, hrest⟩
          | cons hb houter => exact ih (.cons (hb.push hx) houter) .none _ _
        | opening hh hcount braced =>
          cases braced with
          | true => exact ih (.cons ⟨hh, hcount, .nil⟩ hblocks) .none _ _
          | false => exact ih hblocks (.some ⟨hh, hcount, .nil⟩) _ _

/-- Readers of related lines yield related commands. -/
theorem turns_readAll (room : Nat) {r r' : Reader} (hfile : r'.file = r.file)
    (hdecimal : r'.decimal = r.decimal) (h : c.TurnsLines r.decimal r.lines r'.lines) :
    List.Forall₂ (Matched c.TurnsCommand) (Reader.readAll room r) (Reader.readAll room r') := by
  induction room generalizing r r' with
  | zero => exact .nil
  | succ room ih =>
    have hnext : c.TurnsResult r.next r'.next := by
      rw [Reader.next, Reader.next, hfile, hdecimal]
      exact turns_scan r.file h .nil .none _ _
    rw [Reader.readAll, Reader.readAll]
    generalize r.next = x at hnext ⊢
    generalize r'.next = x' at hnext ⊢
    obtain ⟨found, after⟩ := x
    obtain ⟨found', after'⟩ := x'
    obtain ⟨hcommand, hfile, hdecimal, hlines⟩ := hnext
    cases hcommand with
    | none => exact .nil
    | some hx => exact .cons hx (ih hfile hdecimal hlines)

end Reading

end Naming

end Eleven.Source

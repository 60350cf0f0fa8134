import Eleven.Proofs.Source.Parsing

/-! The forms of the statements that are accepted. -/
namespace Eleven.Source

/-- How an accepted statement reads: labels alone, or labels before a name that starts an equation, a
directive, a block or an instruction. -/
inductive Statement.Formed (decimal : Bool) (pos : Position) (ts : List Token) : Statement → Prop
  | labels {labels : List String} (hlabels : takeLabels ts = .ok (labels, [])) :
    Formed decimal pos ts (.command (.single ⟨labels, "", pos⟩ .nothing))
  | equation {labels : List String} {t sign : Token} {rest : List Token} {name : String} {v : Lazy}
    (hlabels : takeLabels ts = .ok (labels, t :: sign :: rest)) (hname : t.lexeme = .ident name)
    (hsign : sign.lexeme = .punct '=') (hvalue : lazyExpression decimal rest = .ok (v, [])) :
    Formed decimal pos ts (.command
      (.single ⟨labels, ".EQU", { pos with column := (t.column : Int) }⟩
        (.equate (Text.upper name) v)))
  | directive {labels : List String} {t : Token} {rest : List Token} {name : String} {k : Keyword}
    {o : Operation} (hlabels : takeLabels ts = .ok (labels, t :: rest))
    (hname : t.lexeme = .ident name) (hk : Keyword.ofName? (Text.upper name) = some k)
    (hargs : arguments decimal k rest = .ok (o, [])) :
    Formed decimal pos ts (.command
      (.single ⟨labels, Text.upper name, { pos with column := (t.column : Int) }⟩ o))
  | block {labels : List String} {t : Token} {rest : List Token} {name : String} {count : Lazy}
    {braced : Bool} (hlabels : takeLabels ts = .ok (labels, t :: rest))
    (hname : t.lexeme = .ident name) (hk : Keyword.ofName? (Text.upper name) = some .repetition)
    (hhead : blockHead decimal rest = .ok (count, braced)) :
    Formed decimal pos ts
      (.opening ⟨labels, Text.upper name, { pos with column := (t.column : Int) }⟩ count braced)
  | instruction {labels : List String} {t : Token} {rest : List Token} {name : String}
    {kinds : List OperandKind} {os : List Operand} (hlabels : takeLabels ts = .ok (labels, t :: rest))
    (hname : t.lexeme = .ident name) (hos : operands decimal kinds rest = .ok os) :
    Formed decimal pos ts (.command
      (.single ⟨labels, Text.upper name, { pos with column := (t.column : Int) }⟩
        (.instruction os)))

/-- The keyword of the directives that ask for an operation. -/
def Operation.keyword? : Operation → Option Keyword
  | .nothing => some .repetition
  | .instruction _ => none
  | .link _ => some .link
  | .includeFile _ => some .includeFile
  | .thisMachine => some .thisMachine
  | .otherMachine => some .otherMachine
  | .dialect _ => some .dialect
  | .bytes _ => some .bytes
  | .words _ => some .words
  | .endOfSource => some .endOfSource
  | .reserveBytes _ => some .reserveBytes
  | .reserveWords _ => some .reserveWords
  | .even => some .even
  | .align _ => some .align
  | .ascii _ => some .ascii
  | .asciz _ => some .asciz
  | .makeArtifact ⟨.raw, _⟩ => some .makeRaw
  | .makeArtifact ⟨.bin, _⟩ => some .makeBin
  | .makeArtifact ⟨.unknown _, _⟩ => none
  | .koi8r => some .koi8r
  | .decimalNumbers => some .decimalNumbers
  | .insertFile _ => some .insertFile
  | .equate _ _ => some .equate

section Forms

variable {decimal : Bool} {pos : Position} {ts rest : List Token} {s : Statement}

theorem finished_eq_ok {a : Operation × List Token} {o : Operation} :
    finished a = .ok o ↔ a = (o, []) := by
  rcases a with ⟨p, _ | ⟨t, more⟩⟩
  · simp [finished]
  · simp [finished]

/-- No two keywords ask for the same operation. -/
theorem keyword?_of_arguments {k : Keyword} {o : Operation}
    (h : arguments decimal k ts = .ok (o, rest)) : o.keyword? = some k := by
  cases k with
  | equate =>
    unfold arguments at h
    obtain ⟨⟨name, more⟩, -, h⟩ := bind_eq_ok.mp h
    obtain ⟨more, -, h⟩ := bind_eq_ok.mp h
    obtain ⟨⟨v, more⟩, -, h⟩ := bind_eq_ok.mp h
    cases h
    rfl
  | thisMachine | otherMachine | endOfSource | even | koi8r | decimalNumbers | repetition | makeRaw
  | makeBin =>
    cases h
    rfl
  | _ =>
    unfold arguments at h
    obtain ⟨⟨v, more⟩, -, h⟩ := bind_eq_ok.mp h
    cases h
    rfl

theorem equation_eq_ok {h : Header} {name : String} (hs : equation decimal h name ts = .ok s) :
    ∃ v, lazyExpression decimal ts = .ok (v, []) ∧ s = .command (.single h (.equate name v)) := by
  unfold equation at hs
  obtain ⟨⟨v, rest⟩, hvalue, hs⟩ := bind_eq_ok.mp hs
  dsimp only at hs
  split at hs
  · next o ho =>
    cases hs
    cases finished_eq_ok.mp ho
    exact ⟨v, hvalue, rfl⟩
  · cases hs

theorem directive_eq_ok {h : Header} {k : Keyword} (hs : directive decimal h k ts = .ok s) :
    (k = .repetition ∧ ∃ count braced, blockHead decimal ts = .ok (count, braced) ∧
      s = .opening h count braced) ∨
    ∃ o, arguments decimal k ts = .ok (o, []) ∧ s = .command (.single h o) := by
  unfold directive at hs
  split at hs
  · split at hs
    · next count braced hhead =>
      cases hs
      exact .inl ⟨rfl, count, braced, hhead, rfl⟩
    · cases hs
  · split at hs
    · next o ho =>
      cases hs
      obtain ⟨a, ha, hfinished⟩ := bind_eq_ok.mp ho
      rw [finished_eq_ok.mp hfinished] at ha
      exact .inr ⟨o, ha, rfl⟩
    · cases hs

theorem formed_of_statement (hs : statement decimal pos ts = .ok s) : s.Formed decimal pos ts := by
  unfold statement at hs
  split at hs
  · cases hs
  · next labels hlabels =>
    cases hs
    exact .labels hlabels
  · next labels t rest hlabels =>
    dsimp only at hs
    split at hs
    · next name hname =>
      unfold named at hs
      split at hs
      · next after haccept =>
        obtain ⟨sign, rfl, hsign⟩ := acceptPunct_eq_true haccept
        obtain ⟨v, hvalue, rfl⟩ := equation_eq_ok (mapError_eq_ok.mp hs)
        exact .equation hlabels hname hsign hvalue
      · split at hs
        · split at hs
          · cases hs
          · next k hk =>
            rcases directive_eq_ok (mapError_eq_ok.mp hs) with
              ⟨rfl, count, braced, hhead, rfl⟩ | ⟨o, hargs, rfl⟩
            · exact .block hlabels hname hk hhead
            · exact .directive hlabels hname hk hargs
        · have hinstruction := mapError_eq_ok.mp hs
          unfold instruction at hinstruction
          obtain ⟨os, hos, hs⟩ := bind_eq_ok.mp hinstruction
          cases hs
          exact .instruction hlabels hname hos
    · cases hs

theorem formed_of_readTokens (h : Reader.readTokens decimal pos ts = .statement s) :
    ∃ pos', s.Formed decimal pos' ts := by
  unfold Reader.readTokens at h
  split at h
  · cases h
  · dsimp only at h
    split at h
    · cases h
    · split at h
      · next hs =>
        cases h
        exact ⟨_, formed_of_statement hs⟩
      · cases h

/-- A line that reads as a statement has its form. -/
theorem formed_of_readLine {file line : String} {number : Nat}
    (h : (Reader.readLine file decimal number line).1 = .statement s) :
    ∃ ts pos, tokenize line = .ok ts ∧ s.Formed decimal pos ts := by
  unfold Reader.readLine at h
  split at h
  · cases h
  · next ts hts =>
    obtain ⟨pos, hformed⟩ := formed_of_readTokens h
    exact ⟨ts, pos, hts, hformed⟩

end Forms

end Eleven.Source

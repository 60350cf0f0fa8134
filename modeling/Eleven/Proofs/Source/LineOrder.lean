import Eleven.Proofs.Failure.Raising
import Eleven.Proofs.Source.Progress

/-! Commands come in the order of their lines. A block comes before the commands in it, and each of
these stands at the line that it was read from. -/
namespace Eleven.Source

mutual

/-- A command and those inside it, a block before its body. Blocks are shown without their bodies. -/
def Command.outline : Command → List Command
  | .single h o => [.single h o]
  | .repetition h count body => .repetition h count [] :: Command.outlineAll body

def Command.outlineAll : List Command → List Command
  | [] => []
  | c :: cs => c.outline ++ Command.outlineAll cs

end

/-- What a statement starts: a command, or a block that is still empty. -/
def Statement.head : Statement → Command
  | .command c => c
  | .opening h count _ => .repetition h count []

/-- The command that a line starts, if it starts one. -/
def LineReading.head? : LineReading → Option Command
  | .statement s => some s.head
  | _ => none

/-- The command is the one that line `i` starts, counted from zero, and its position is in this
line. -/
def ParsedAt (file : String) (lines : List String) (i : Nat) (c : Command) : Prop :=
  ∃ line, lines[i]? = some line ∧
    (∃ decimal, (Reader.readLine file decimal (i + 1) line).1.head? = some c) ∧
    ∃ column, c.header.position = { Reader.linePosition file (i + 1) line with column := column }

/-- The commands are parsed from lines in a range, and the lines of their positions increase. -/
structure InLineOrder (file : String) (lines : List String) (first last : Nat)
    (cs : List Command) : Prop where
  range : first ≤ last
  parsed : ∀ c ∈ cs, ∃ i, first ≤ i ∧ i < last ∧ ParsedAt file lines i c
  increasing : cs.Pairwise fun c d => c.header.position.line < d.header.position.line

section Outline

theorem Command.outlineAll_append (cs ds : List Command) :
    outlineAll (cs ++ ds) = outlineAll cs ++ outlineAll ds := by
  induction cs with
  | nil => rfl
  | cons c cs ih => rw [List.cons_append, outlineAll, outlineAll, ih, List.append_assoc]

theorem OpenBlock.outline_push (b : OpenBlock) (c : Command) :
    (b.push c).close.outline = b.close.outline ++ c.outline := by
  have hbody : (b.push c).body.reverse = b.body.reverse ++ [c] := List.reverse_cons
  have hlast : Command.outlineAll [c] = c.outline := by
    rw [Command.outlineAll, Command.outlineAll, List.append_nil]
  rw [close, close, Command.outline, Command.outline, hbody, Command.outlineAll_append, hlast]
  rfl

/-- What open blocks hold so far, the outermost first. -/
def openOutline (blocks : List OpenBlock) : List Command :=
  blocks.reverse.flatMap fun b => b.close.outline

theorem openOutline_cons (b : OpenBlock) (blocks : List OpenBlock) :
    openOutline (b :: blocks) = openOutline blocks ++ b.close.outline := by
  simp [openOutline]

theorem openOutline_push (b : OpenBlock) (c : Command) (blocks : List OpenBlock) :
    openOutline (b.push c :: blocks) = openOutline (b :: blocks) ++ c.outline := by
  rw [openOutline_cons, openOutline_cons, OpenBlock.outline_push, List.append_assoc]

end Outline

/-- A statement starts one command, at a position that satisfies `Q`. -/
structure Statement.Heads (Q : Position → Prop) (s : Statement) : Prop where
  outline : s.head.outline = [s.head]
  position : Q s.head.header.position

section Statements

variable {Q : Position → Prop} (decimal : Bool)

theorem heads_single {h : Header} (hpos : Q h.position) (o : Operation) :
    (Statement.command (.single h o)).Heads Q :=
  ⟨rfl, hpos⟩

theorem heads_opening {h : Header} (hpos : Q h.position) (count : Lazy) (braced : Bool) :
    (Statement.opening h count braced).Heads Q :=
  ⟨rfl, hpos⟩

theorem heads_directive {h : Header} (hpos : Q h.position) (k : Keyword) (ts : List Token) :
    Ensures (Statement.Heads Q) (fun _ => True) (directive decimal h k ts) := by
  unfold directive
  split
  · cases blockHead decimal ts with
    | error c => trivial
    | ok r => exact heads_opening hpos r.1 r.2
  · cases arguments decimal k ts >>= finished with
    | error c => trivial
    | ok o => exact heads_single hpos o

theorem heads_equation {h : Header} (hpos : Q h.position) (name : String) (ts : List Token) :
    Ensures (Statement.Heads Q) (fun _ => True) (equation decimal h name ts) := by
  unfold equation
  apply (ensures_true (lazyExpression decimal ts)).bind
  rintro ⟨v, rest⟩ _
  dsimp only
  cases finished (.equate name v, rest) with
  | error c => trivial
  | ok o => exact heads_single hpos o

theorem heads_instruction {h : Header} (hpos : Q h.position) (ts : List Token) :
    Ensures (Statement.Heads Q) (fun _ => True) (instruction decimal h ts) := by
  unfold instruction
  apply (ensures_true (operands decimal _ ts)).bind
  intro os _
  exact heads_single hpos (.instruction os)

theorem heads_named {pos : Position} (hpos : Q pos) (labels : List String) (name : String)
    (ts : List Token) :
    Ensures (Statement.Heads Q) (fun _ => True) (named decimal labels pos name ts) := by
  unfold named
  split
  · exact (heads_equation decimal hpos name _).mapError fun _ _ => trivial
  · split
    · split
      · trivial
      · exact (heads_directive decimal hpos _ ts).mapError fun _ _ => trivial
    · exact (heads_instruction decimal hpos ts).mapError fun _ _ => trivial

/-- The place of a statement differs from that of its line in the column at most. -/
theorem heads_statement (pos : Position) (ts : List Token) :
    Ensures (Statement.Heads fun p => ∃ column, p = { pos with column := column })
      (fun _ => True) (statement decimal pos ts) := by
  unfold statement
  split
  · trivial
  · exact heads_single ⟨pos.column, rfl⟩ _
  · split
    · exact heads_named decimal ⟨_, rfl⟩ _ _ _
    · trivial

theorem heads_readLine {file : String} {decimal : Bool} {number : Nat} {line : String}
    {s : Statement} (h : (Reader.readLine file decimal number line).1 = .statement s) :
    s.Heads fun p =>
      ∃ column, p = { Reader.linePosition file number line with column := column } := by
  unfold Reader.readLine at h
  cases hts : tokenize line with
  | error f =>
    rw [hts] at h
    cases h
  | ok ts =>
    rw [hts] at h
    cases ts with
    | nil => cases h
    | cons t ts =>
      change Reader.readTokens decimal _ (t :: ts) = _ at h
      unfold Reader.readTokens at h
      dsimp only at h
      split_ifs at h
      split at h
      · next s' hs' =>
        cases h
        have hheads := (heads_statement decimal _ (t :: ts)).of_eq_ok hs'
        exact ⟨hheads.outline, hheads.position⟩
      · cases h

end Statements

section Order

variable {file : String} {lines : List String} {first mid last i : Nat} {c : Command}
  {cs ds : List Command}

theorem ParsedAt.line (h : ParsedAt file lines i c) : c.header.position.line = i + 1 := by
  obtain ⟨line, -, -, column, hpos⟩ := h
  rw [hpos]
  exact Int.natCast_succ i

namespace InLineOrder

theorem nil (h : first ≤ last) : InLineOrder file lines first last [] :=
  ⟨h, by simp, .nil⟩

theorem single (h : ParsedAt file lines i c) : InLineOrder file lines i (i + 1) [c] := by
  refine ⟨Nat.le_succ i, fun d hd => ?_, List.pairwise_singleton ..⟩
  rw [List.mem_singleton.mp hd]
  exact ⟨i, Nat.le_refl i, Nat.lt_succ_self i, h⟩

theorem append (h : InLineOrder file lines first mid cs) (h' : InLineOrder file lines mid last ds) :
    InLineOrder file lines first last (cs ++ ds) := by
  refine ⟨h.range.trans h'.range, fun c hc => ?_, ?_⟩
  · rcases List.mem_append.mp hc with hc | hc
    · obtain ⟨i, hlow, hhigh, hi⟩ := h.parsed c hc
      exact ⟨i, hlow, hhigh.trans_le h'.range, hi⟩
    · obtain ⟨i, hlow, hhigh, hi⟩ := h'.parsed c hc
      exact ⟨i, h.range.trans hlow, hhigh, hi⟩
  · refine List.pairwise_append.mpr ⟨h.increasing, h'.increasing, fun c hc d hd => ?_⟩
    obtain ⟨i, -, hi, hci⟩ := h.parsed c hc
    obtain ⟨j, hj, -, hdj⟩ := h'.parsed d hd
    rw [hci.line, hdj.line]
    omega

theorem mono (h : InLineOrder file lines first mid cs) (hmid : mid ≤ last) :
    InLineOrder file lines first last cs := by
  have hnone : InLineOrder file lines mid last [] := .nil hmid
  have happend := h.append hnone
  rwa [List.append_nil] at happend

end InLineOrder

end Order

namespace Reader

/-- If the result is a command, its parts are parsed, in order, from the lines taken. -/
def Result.InLineOrder (file : String) (lines : List String) (first : Nat) (r : Result) : Prop :=
  ∀ c, r.1 = some (.ok c) → Source.InLineOrder file lines first r.2.taken c.outline

section Scanning

variable {file : String} {lines : List String} {first : Nat}

theorem inLineOrder_failed (e : Failure) (r : Reader) :
    Result.InLineOrder file lines first (some (.error e), r) := by
  intro c hc
  cases hc

theorem inLineOrder_ok {c : Command} {r : Reader}
    (h : InLineOrder file lines first r.taken c.outline) :
    Result.InLineOrder file lines first (some (.ok c), r) := by
  intro d hd
  cases hd
  exact h

/-- The induction is on the lines left. Each adds to the commands of the open blocks one command at
this line, or none. -/
theorem inLineOrder_scan {rest : List String} {taken : Nat} (hrest : Remain lines taken rest)
    {blocks : List OpenBlock} {waiting : Option OpenBlock}
    (hopen : InLineOrder file lines first taken (openOutline (waiting.toList ++ blocks)))
    (decimal : Bool) :
    Result.InLineOrder file lines first (scan file blocks waiting decimal taken rest) := by
  induction rest generalizing taken blocks waiting decimal with
  | nil =>
    cases waiting with
    | some b => exact inLineOrder_failed _ _
    | none =>
      cases blocks with
      | nil =>
        intro c hc
        cases hc
      | cons b blocks => exact inLineOrder_failed _ _
  | cons line rest ih =>
    have hafter := hrest.tail
    have hkept := hopen.mono (Nat.le_succ taken)
    cases waiting with
    | some b =>
      rw [scan]
      cases braceLine line with
      | empty => exact ih hafter hkept decimal
      | brace =>
        have hentered : InLineOrder file lines first (taken + 1) (openOutline (b :: blocks)) := hkept
        exact ih hafter hentered decimal
      | failed f => exact inLineOrder_failed _ _
      | other => exact inLineOrder_failed _ _
    | none =>
      rcases hrun : readLine file decimal (taken + 1) line with ⟨reading, decimal'⟩
      rw [scan, hrun]
      cases reading with
      | empty => exact ih hafter hkept decimal'
      | failed e => exact inLineOrder_failed e _
      | closing pos =>
        cases blocks with
        | nil => exact inLineOrder_failed _ _
        | cons b outer =>
          have hclosed : InLineOrder file lines first (taken + 1)
              (openOutline outer ++ b.close.outline) := openOutline_cons b outer ▸ hkept
          cases outer with
          | nil => exact inLineOrder_ok hclosed
          | cons c more =>
            rw [← openOutline_push] at hclosed
            exact ih hafter hclosed decimal'
      | statement st =>
        have hheads := heads_readLine (congrArg Prod.fst hrun)
        have hparsed : ParsedAt file lines taken st.head :=
          ⟨line, hrest.getElem?, ⟨decimal, by rw [hrun]; rfl⟩, hheads.position⟩
        have hadded : InLineOrder file lines first (taken + 1)
            (openOutline blocks ++ st.head.outline) := by
          rw [hheads.outline]
          exact hopen.append (.single hparsed)
        cases st with
        | command c =>
          cases blocks with
          | nil => exact inLineOrder_ok hadded
          | cons b outer =>
            rw [← openOutline_push] at hadded
            exact ih hafter hadded decimal'
        | opening h count braced =>
          have hopened : InLineOrder file lines first (taken + 1)
              (openOutline (⟨h, count, []⟩ :: blocks)) := openOutline_cons _ blocks ▸ hadded
          cases braced with
          | true => exact ih hafter hopened decimal'
          | false => exact ih hafter hopened decimal'

/-- A call gives a command whose parts are parsed, in order, from the lines that the call takes. -/
theorem Within.inLineOrder_next {r : Reader} (hr : r.Within file lines) :
    Result.InLineOrder file lines r.taken r.next := by
  unfold Reader.next
  rw [hr.file]
  exact inLineOrder_scan hr.remain (.nil (Nat.le_refl r.taken)) r.decimal

theorem inLineOrder_readAll (room : Nat) {r : Reader} (hr : r.Within file lines) :
    InLineOrder file lines r.taken lines.length
      (Command.outlineAll ((readAll room r).filterMap Except.toOption)) := by
  induction room generalizing r with
  | zero => exact .nil hr.remain.taken_le
  | succ room ih =>
    have hrest := ih hr.next
    rcases hnext : r.next with ⟨x, after⟩
    rw [hnext] at hrest
    rw [readAll, hnext]
    cases x with
    | none => exact .nil hr.remain.taken_le
    | some x =>
      cases x with
      | error e =>
        have htaken : InLineOrder file lines r.taken after.taken [] := by
          have hle := hr.taken_le_next
          rw [hnext] at hle
          exact .nil hle
        exact htaken.append hrest
      | ok c =>
        have hfirst := hr.inLineOrder_next c (congrArg Prod.fst hnext)
        rw [hnext] at hfirst
        exact hfirst.append hrest

end Scanning

/-- Calls one after the other, also after failures, come to the end of a text within one call more
than it has lines, and stay there. Each line is taken by one call, every call before the end takes
one, and the commands stand in the order of the lines that they are parsed from. -/
theorem calls_in_line_order (file text : String) :
    (commands file text).length ≤ (Text.lines text).length ∧
    (∀ k, ((ofSource file text).afterCalls k).next.1 = (commands file text)[k]?) ∧
    (∀ k, ((ofSource file text).afterCalls k).Within file (Text.lines text)) ∧
    (∀ k < (commands file text).length,
      ((ofSource file text).afterCalls k).taken <
        ((ofSource file text).afterCalls (k + 1)).taken) ∧
    (∀ i < (Text.lines text).length, ∃! k,
      ((ofSource file text).afterCalls k).taken ≤ i ∧
        i < ((ofSource file text).afterCalls (k + 1)).taken) ∧
    (∀ k c, (commands file text)[k]? = some (.ok c) →
      InLineOrder file (Text.lines text) ((ofSource file text).afterCalls k).taken
        ((ofSource file text).afterCalls (k + 1)).taken c.outline) ∧
    InLineOrder file (Text.lines text) 0 (Text.lines text).length
      (Command.outlineAll ((commands file text).filterMap Except.toOption)) := by
  have hr := within_ofSource file text
  have hcalls : ∀ k, ((ofSource file text).afterCalls k).next.1 = (commands file text)[k]? :=
    next_afterCalls (Nat.le_refl _)
  refine ⟨length_readAll_le _ _, hcalls, hr.afterCalls, fun k hk => ?_,
    fun i hi => hr.existsUnique_call (Nat.zero_le i) hi, fun k c hc => ?_, inLineOrder_readAll _ hr⟩
  · rw [afterCalls_succ]
    apply (hr.afterCalls k).taken_lt_next
    rw [hcalls, List.getElem?_eq_getElem hk]
  · rw [afterCalls_succ]
    apply (hr.afterCalls k).inLineOrder_next c
    rw [hcalls, hc]

/-- A block with another one in it, a line that fails, and a command. -/
example :
    (Command.outlineAll ((commands "a"
      ".REPEAT 2 \x7b\nNOP\n.REPEAT 3\n\x7b\nHALT\n\x7d\n\x7d\n?\nRTI").filterMap
        Except.toOption)).map (·.header.position.line) = [1, 2, 3, 5, 9] := by
  decide +kernel

end Reader

end Eleven.Source

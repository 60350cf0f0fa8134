import Eleven.Proofs.Failure.Placed
import Eleven.Proofs.Lazy.Raising
import Eleven.Proofs.Source.Progress
import Mathlib.Data.List.TakeWhile

/-! Every command and every failure that is read from a source stands at one of its lines. -/
namespace Eleven.Source

def Operand.StepsRaise (P : Failure → Prop) (o : Operand) : Prop :=
  ∀ v, o.value = some v → v.StepsRaise P

/-- The values that an operation holds. -/
def Operation.values : Operation → List Lazy
  | .instruction os => os.filterMap Operand.value
  | .link v => [v]
  | .bytes vs => vs
  | .words vs => vs
  | .reserveBytes v => [v]
  | .reserveWords v => [v]
  | .align v => [v]
  | .equate _ v => [v]
  | _ => []

def Operation.StepsRaise (P : Failure → Prop) (o : Operation) : Prop :=
  ∀ v ∈ o.values, v.StepsRaise P

/-- The command and those inside it stand at positions that satisfy `Q`, and their values raise
nothing that cannot be placed there. -/
inductive Command.Located (Q : Position → Prop) : Command → Prop
  | single {h : Header} {o : Operation} (hpos : Q h.position)
      (hvalues : o.StepsRaise (Failure.Placeable Q)) : Located Q (.single h o)
  | repetition {h : Header} {count : Lazy} {body : List Command} (hpos : Q h.position)
      (hcount : count.StepsRaise (Failure.Placeable Q)) (hbody : ∀ c ∈ body, Located Q c) :
      Located Q (.repetition h count body)

section Values

variable {P : Failure → Prop} (hP : ∀ f, P (.fault f)) (decimal : Bool)
include hP

/-- What is written in a source raises nothing but faults. -/
theorem Expr.stepsRaise (e : Expr) : e.toLazy.StepsRaise P := by
  induction e with
  | number n => trivial
  | name s => trivial
  | neg e ih => exact ih.neg hP
  | add a b iha ihb => exact iha.add ihb
  | sub a b iha ihb => exact iha.sub ihb
  | mul a b iha ihb => exact iha.mul ihb
  | div a b iha ihb => exact ⟨iha, ihb⟩

theorem ensures_lazyExpression (ts : List Token) :
    Ensures (fun r => r.1.StepsRaise P) (fun _ => True) (lazyExpression decimal ts) := by
  unfold lazyExpression
  cases expression decimal ts with
  | error c => trivial
  | ok r => exact r.1.stepsRaise hP

theorem ensures_expressionList (room : Nat) (ts : List Token) :
    Ensures (fun r => ∀ v ∈ r.1, v.StepsRaise P) (fun _ => True)
      (expressionList decimal room ts) := by
  induction room generalizing ts with
  | zero => trivial
  | succ room ih =>
    unfold expressionList
    apply (ensures_lazyExpression hP decimal ts).bind
    rintro ⟨v, rest⟩ hv
    dsimp only
    split
    · apply (ih _).bind
      rintro ⟨vs, rest⟩ hvs w hw
      rcases List.mem_cons.mp hw with rfl | hw
      · exact hv
      · exact hvs w hw
    · intro w hw
      rw [List.mem_singleton.mp hw]
      exact hv

end Values

section Operands

variable {P : Failure → Prop} (hP : ∀ f, P (.fault f)) (decimal : Bool)

theorem stepsRaise_inMode (m : Machine.Mode) (r : Machine.Register) :
    (Operand.inMode m r).StepsRaise P := by
  intro v h
  cases h

theorem stepsRaise_withWord {v : Lazy} (h : v.StepsRaise P) (m : Machine.Mode)
    (r : Machine.Register) : (Operand.withWord m r v).StepsRaise P := by
  intro w hw
  cases hw
  exact h

theorem stepsRaise_relativeTo {v : Lazy} (h : v.StepsRaise P) (m : Machine.Mode) :
    (Operand.relativeTo m v).StepsRaise P := by
  intro w hw
  cases hw
  exact h

theorem stepsRaise_afterRegister (deferred : Bool) (r : Machine.Register) (ts : List Token) :
    (afterRegister deferred r ts).1.StepsRaise P := by
  unfold afterRegister
  split
  · exact stepsRaise_inMode _ r
  · split
    · exact stepsRaise_withWord (Lazy.stepsRaise_int 0) _ r
    · exact stepsRaise_inMode _ r

include hP

theorem ensures_indexed (deferred : Bool) (ts : List Token) :
    Ensures (fun r => r.1.StepsRaise P) (fun _ => True) (indexed decimal deferred ts) := by
  unfold indexed
  apply (ensures_lazyExpression hP decimal ts).bind
  rintro ⟨v, rest⟩ hv
  dsimp only
  split
  · exact stepsRaise_withWord hv _ _
  · exact stepsRaise_relativeTo hv _

theorem ensures_addressBody (deferred : Bool) (ts : List Token) :
    Ensures (fun r => r.1.StepsRaise P) (fun _ => True) (addressBody decimal deferred ts) := by
  unfold addressBody
  split
  · apply (ensures_lazyExpression hP decimal _).bind
    intro r hr
    exact stepsRaise_withWord hr _ _
  · split
    · exact stepsRaise_inMode _ _
    · split
      · exact stepsRaise_afterRegister deferred _ _
      · split
        · split
          · exact stepsRaise_inMode _ _
          · exact ensures_indexed hP decimal deferred _
        · exact ensures_indexed hP decimal deferred _

theorem ensures_operandBody (kind : OperandKind) (ts : List Token) :
    Ensures (fun r => r.1.StepsRaise P) (fun _ => True) (operandBody decimal kind ts) := by
  cases kind with
  | address => exact ensures_addressBody hP decimal _ _
  | register =>
    change Ensures _ _ (registerOperand ts)
    unfold registerOperand
    split
    · trivial
    · split
      · intro v h
        cases h
      · trivial
  | expression =>
    change Ensures _ _ (expressionOperand decimal ts)
    unfold expressionOperand
    apply (ensures_lazyExpression hP decimal _).bind
    intro r hr v hv
    cases hv
    exact hr

theorem ensures_operand (kind : OperandKind) (ts : List Token) :
    Ensures (fun r => r.1.StepsRaise P) (fun _ => True) (operand decimal kind ts) := by
  unfold operand
  apply (ensures_operandBody hP decimal kind ts).bind
  rintro ⟨o, rest⟩ ho
  dsimp only
  split
  · exact ho
  · split
    · exact ho
    · trivial

theorem ensures_moreOperands (room : Nat) (kinds : List OperandKind) (ts : List Token) :
    Ensures (fun os => ∀ o ∈ os, o.StepsRaise P) (fun _ => True)
      (moreOperands decimal room kinds ts) := by
  induction room generalizing kinds ts with
  | zero =>
    cases ts with
    | nil => intro o ho; cases ho
    | cons t ts => intro o ho; cases ho
  | succ room ih =>
    cases ts with
    | nil => intro o ho; cases ho
    | cons t ts =>
      unfold moreOperands
      apply (ensures_true (expectPunct ',' (t :: ts))).bind
      intro rest _
      apply (ensures_operand hP decimal _ rest).bind
      rintro ⟨o, after⟩ ho
      apply (ih kinds.tail after).bind
      intro os hos
      exact List.forall_mem_cons.mpr ⟨ho, hos⟩

theorem ensures_operands (kinds : List OperandKind) (ts : List Token) :
    Ensures (fun os => ∀ o ∈ os, o.StepsRaise P) (fun _ => True) (operands decimal kinds ts) := by
  cases ts with
  | nil => intro o ho; cases ho
  | cons t ts =>
    unfold operands
    apply (ensures_operand hP decimal _ _).bind
    rintro ⟨o, rest⟩ ho
    apply (ensures_moreOperands hP decimal _ _ rest).bind
    intro os hos
    exact List.forall_mem_cons.mpr ⟨ho, hos⟩

end Operands

section Directives

variable {P : Failure → Prop} (hP : ∀ f, P (.fault f)) (decimal : Bool)
include hP

/-- The argument of a directive that takes one expression. -/
theorem ensures_expressionArgument {f : Lazy → Operation} (hf : ∀ v, (f v).values = [v])
    (ts : List Token) :
    Ensures (fun r => r.1.StepsRaise P) (fun _ => True) (do
      let (v, rest) ← lazyExpression decimal ts
      .ok (f v, rest)) := by
  apply (ensures_lazyExpression hP decimal ts).bind
  rintro ⟨v, rest⟩ hv w hw
  rw [hf, List.mem_singleton] at hw
  rw [hw]
  exact hv

theorem ensures_listArgument {f : List Lazy → Operation} (hf : ∀ vs, (f vs).values = vs)
    (ts : List Token) :
    Ensures (fun r => r.1.StepsRaise P) (fun _ => True) (do
      let (vs, rest) ← expressionList decimal (ts.length + 1) ts
      .ok (f vs, rest)) := by
  apply (ensures_expressionList hP decimal _ ts).bind
  rintro ⟨vs, rest⟩ hvs w hw
  rw [hf] at hw
  exact hvs w hw

omit hP in
/-- An argument that is no expression leaves nothing to evaluate. -/
theorem ensures_plainArgument {α : Type} {f : α → Operation} (hf : ∀ a, (f a).values = [])
    (x : Except Complaint (α × List Token)) :
    Ensures (fun r => r.1.StepsRaise P) (fun _ => True) (do
      let (a, rest) ← x
      .ok (f a, rest)) := by
  cases x with
  | error c => trivial
  | ok r =>
    intro w hw
    rw [hf] at hw
    cases hw

theorem ensures_arguments (k : Keyword) (ts : List Token) :
    Ensures (fun r => r.1.StepsRaise P) (fun _ => True) (arguments decimal k ts) := by
  cases k with
  | link => exact ensures_expressionArgument hP decimal (fun _ => rfl) ts
  | reserveBytes => exact ensures_expressionArgument hP decimal (fun _ => rfl) ts
  | reserveWords => exact ensures_expressionArgument hP decimal (fun _ => rfl) ts
  | align => exact ensures_expressionArgument hP decimal (fun _ => rfl) ts
  | bytes => exact ensures_listArgument hP decimal (fun _ => rfl) ts
  | words => exact ensures_listArgument hP decimal (fun _ => rfl) ts
  | includeFile => exact ensures_plainArgument (fun _ => rfl) (expectText ts)
  | insertFile => exact ensures_plainArgument (fun _ => rfl) (expectText ts)
  | ascii => exact ensures_plainArgument (fun _ => rfl) (expectText ts)
  | asciz => exact ensures_plainArgument (fun _ => rfl) (expectText ts)
  | dialect => exact ensures_plainArgument (fun _ => rfl) (expectDialect ts)
  | equate =>
    rw [arguments]
    apply (ensures_true (expectName ts)).bind
    intro r _
    apply (ensures_true (expectPunct ',' r.2)).bind
    intro rest _
    exact ensures_expressionArgument hP decimal (fun _ => rfl) rest
  | _ => intro v hv; cases hv

end Directives

/-- A statement as its command is. -/
def Statement.Located (Q : Position → Prop) : Statement → Prop
  | .command c => c.Located Q
  | .opening h count _ => Q h.position ∧ count.StepsRaise (Failure.Placeable Q)

section Statements

variable {Q : Position → Prop} (decimal : Bool) {h : Header} (hpos : Q h.position)
include hpos

theorem ensures_directive (k : Keyword) (ts : List Token) :
    Ensures (Statement.Located Q) (fun _ => True) (directive decimal h k ts) := by
  have hvalues := ensures_arguments (Failure.placeable_fault (Q := Q)) decimal k ts
  unfold directive
  split
  · have hcount := ensures_lazyExpression (Failure.placeable_fault (Q := Q)) decimal ts
    have hhead : Ensures (fun r => r.1.StepsRaise (Failure.Placeable Q)) (fun _ => True)
        (blockHead decimal ts) := by
      unfold blockHead
      apply hcount.bind
      rintro ⟨v, rest⟩ hv
      dsimp only
      split <;> trivial
    cases hb : blockHead decimal ts with
    | error c => trivial
    | ok r => exact ⟨hpos, hhead.of_eq_ok hb⟩
  · have hfinished : Ensures (Operation.StepsRaise (Failure.Placeable Q)) (fun _ => True)
        (arguments decimal k ts >>= finished) := by
      apply hvalues.bind
      rintro ⟨o, rest⟩ ho
      cases rest with
      | nil => exact ho
      | cons t rest => trivial
    cases ha : arguments decimal k ts >>= finished with
    | error c => trivial
    | ok o => exact .single hpos (hfinished.of_eq_ok ha)

theorem ensures_equation (name : String) (ts : List Token) :
    Ensures (Statement.Located Q) (fun _ => True) (equation decimal h name ts) := by
  unfold equation
  apply (ensures_lazyExpression (Failure.placeable_fault (Q := Q)) decimal ts).bind
  rintro ⟨v, rest⟩ hv
  cases rest with
  | nil =>
    apply Command.Located.single hpos
    intro w hw
    rw [List.mem_singleton.mp hw]
    exact hv
  | cons t rest => trivial

theorem ensures_instruction (ts : List Token) :
    Ensures (Statement.Located Q) (fun _ => True) (instruction decimal h ts) := by
  unfold instruction
  apply (ensures_operands (Failure.placeable_fault (Q := Q)) decimal _ ts).bind
  intro os hos
  apply Command.Located.single hpos
  intro v hv
  obtain ⟨o, ho, hov⟩ := List.mem_filterMap.mp hv
  exact hos o ho v hov

end Statements

/-- A reading of a line as its statement is. -/
def LineReading.Located (Q : Position → Prop) : LineReading → Prop
  | .empty => True
  | .closing pos => Q pos
  | .statement s => s.Located Q
  | .failed e => e.Placed Q

section Lines

variable {Q : Position → Prop} (decimal : Bool) {pos : Position} (hpos : Q pos)
include hpos

theorem ensures_named (labels : List String) (name : String) (ts : List Token) :
    Ensures (Statement.Located Q) (Failure.Placed Q) (named decimal labels pos name ts) := by
  have hcomplain : ∀ c : Complaint, True → (c.failure pos).Placed Q := fun c _ =>
    c.placed_failure hpos
  unfold named
  split
  · exact (ensures_equation decimal hpos name _).mapError hcomplain
  · split
    · split
      · exact (Problem.unknownDirective name).placed_failure hpos
      · exact (ensures_directive decimal hpos _ ts).mapError hcomplain
    · exact (ensures_instruction decimal hpos ts).mapError hcomplain

variable (hQ : Places Q)
include hQ

theorem ensures_statement (ts : List Token) :
    Ensures (Statement.Located Q) (Failure.Placed Q) (statement decimal pos ts) := by
  unfold statement
  split
  · exact Complaint.placed_failure hpos _
  · apply Command.Located.single hpos
    intro v hv
    cases hv
  · split
    · exact ensures_named decimal (hQ.column _ hpos) _ _ _
    · exact Complaint.placed_failure (hQ.column _ hpos) _

theorem located_readTokens (ts : List Token) :
    (Reader.readTokens decimal pos ts).Located Q := by
  cases ts with
  | nil => trivial
  | cons t ts =>
    have hstatement := ensures_statement decimal (hQ.column (t.column : Int) hpos) hQ (t :: ts)
    unfold Reader.readTokens
    dsimp only
    split
    · exact hQ.column _ hpos
    · split
      · next s hs => exact hstatement.of_eq_ok hs
      · next e he => exact hstatement.of_eq_error he

end Lines

theorem located_readLine {Q : Position → Prop} (hQ : Places Q) (file : String) (decimal : Bool)
    (number : Nat) (line : String) (hpos : Q (Reader.linePosition file number line)) :
    (Reader.readLine file decimal number line).1.Located Q := by
  unfold Reader.readLine
  dsimp only
  split
  · exact Complaint.placed_failure hpos _
  · exact located_readTokens decimal hpos hQ _

structure OpenBlock.Located (Q : Position → Prop) (b : OpenBlock) : Prop where
  header : Q b.header.position
  count : b.count.StepsRaise (Failure.Placeable Q)
  body : ∀ c ∈ b.body, c.Located Q

section Blocks

variable {Q : Position → Prop} {b : OpenBlock} (hb : b.Located Q)
include hb

theorem OpenBlock.Located.push {c : Command} (hc : c.Located Q) : (b.push c).Located Q :=
  ⟨hb.header, hb.count, List.forall_mem_cons.mpr ⟨hc, hb.body⟩⟩

theorem OpenBlock.Located.close : b.close.Located Q :=
  .repetition hb.header hb.count fun c hc => hb.body c (List.mem_reverse.mp hc)

end Blocks

/-- What a reader gives, if anything. -/
def Located (Q : Position → Prop) : Except Failure Command → Prop :=
  Ensures (Command.Located Q) (Failure.Placed Q)

namespace Reader

section Scanning

variable {Q : Position → Prop} (hQ : Places Q) {file : String} {lines : List String}
  (hlines : ∀ i line, lines[i]? = some line → Q (linePosition file (i + 1) line))

theorem located_some (c : Except Failure Command) (hc : Located Q c) (r : Reader) :
    ∀ x ∈ ((some c, r) : Result).1, Located Q x := by
  intro x hx
  cases hx
  exact hc

theorem located_fail {pos : Position} (hpos : Q pos) (c : Complaint) (r : Reader) :
    ∀ x ∈ (fail pos c r).1, Located Q x :=
  located_some (.error (c.failure pos)) (c.placed_failure hpos) r

include hQ hlines

/-- The induction is on the lines left, which are those of the file after the ones taken. -/
theorem located_scan {rest : List String} {taken : Nat} (hrest : Remain lines taken rest)
    {blocks : List OpenBlock} (hblocks : ∀ b ∈ blocks, b.Located Q) {waiting : Option OpenBlock}
    (hwaiting : ∀ b ∈ waiting, b.Located Q) (decimal : Bool) :
    ∀ c ∈ (scan file blocks waiting decimal taken rest).1, Located Q c := by
  induction rest generalizing taken blocks waiting decimal with
  | nil =>
    cases waiting with
    | some b => exact located_fail (hwaiting b rfl).header _ _
    | none =>
      cases blocks with
      | nil =>
        intro c hc
        cases hc
      | cons b blocks => exact located_fail (hblocks b (by simp)).header _ _
  | cons line rest ih =>
    have hafter := hrest.tail
    have hnone : ∀ b ∈ (none : Option OpenBlock), b.Located Q := by simp
    cases waiting with
    | some b =>
      have hb := hwaiting b rfl
      rw [scan]
      cases braceLine line with
      | empty => exact ih hafter hblocks hwaiting decimal
      | failed f => exact located_fail hb.header _ _
      | other => exact located_fail hb.header _ _
      | brace => exact ih hafter (List.forall_mem_cons.mpr ⟨hb, hblocks⟩) hnone decimal
    | none =>
      have hreading := located_readLine hQ file decimal (taken + 1) line
        (hlines taken line hrest.getElem?)
      rcases hrun : readLine file decimal (taken + 1) line with ⟨reading, decimal'⟩
      rw [hrun] at hreading
      rw [scan, hrun]
      cases reading with
      | empty => exact ih hafter hblocks hnone decimal'
      | failed e => exact located_some (.error e) hreading _
      | closing pos =>
        cases blocks with
        | nil => exact located_fail hreading _ _
        | cons b outer =>
          rw [List.forall_mem_cons] at hblocks
          cases outer with
          | nil => exact located_some (.ok b.close) hblocks.1.close _
          | cons c more =>
            have hmore := List.forall_mem_cons.mp hblocks.2
            have hpushed := hmore.1.push hblocks.1.close
            exact ih hafter (List.forall_mem_cons.mpr ⟨hpushed, hmore.2⟩) hnone decimal'
      | statement st =>
        cases st with
        | command c =>
          cases blocks with
          | nil => exact located_some (.ok c) hreading _
          | cons b outer =>
            rw [List.forall_mem_cons] at hblocks
            have hpushed := hblocks.1.push hreading
            exact ih hafter (List.forall_mem_cons.mpr ⟨hpushed, hblocks.2⟩) hnone decimal'
        | opening h count braced =>
          have hnew : OpenBlock.Located Q ⟨h, count, []⟩ := ⟨hreading.1, hreading.2, by simp⟩
          cases braced with
          | true => exact ih hafter (List.forall_mem_cons.mpr ⟨hnew, hblocks⟩) hnone decimal'
          | false =>
            apply ih hafter hblocks _ decimal'
            intro b hb
            cases hb
            exact hnew

theorem located_readAll (room : Nat) {r : Reader} (hr : r.Within file lines) :
    ∀ c ∈ readAll room r, Located Q c := by
  induction room generalizing r with
  | zero => simp [readAll]
  | succ room ih =>
    have hnext : ∀ c ∈ r.next.1, Located Q c := by
      unfold next
      rw [hr.file]
      exact located_scan hQ hlines hr.remain (by simp) (by simp) r.decimal
    have hafter := hr.next
    unfold readAll
    rcases hr' : r.next with ⟨x, after⟩
    rw [hr'] at hnext hafter
    cases x with
    | none => simp
    | some x => exact List.forall_mem_cons.mpr ⟨hnext x rfl, ih hafter⟩

end Scanning

/-- What is read from a text stands at its lines. -/
theorem located_commands {Q : Position → Prop} (hQ : Places Q) {file text : String}
    (hlines : ∀ i line, (Text.lines text)[i]? = some line → Q (linePosition file (i + 1) line)) :
    ∀ c ∈ commands file text, Located Q c :=
  located_readAll hQ hlines _ (within_ofSource file text)

end Reader

/-- A source as it was read: the name it goes by, and its text. -/
structure SourceFile where
  name : String
  text : String

/-- `text` is the line without the spaces and tabs at its end. -/
structure IsTrimmed (line text : String) : Prop where
  blanks : ∃ tail, line.toList = text.toList ++ tail ∧ ∀ c ∈ tail, c = ' ' ∨ c = '\t'
  last : ∀ c, text.toList.getLast? = some c → c ≠ ' ' ∧ c ≠ '\t'

/-- The position names the file, gives the number of one of its lines and quotes this line. -/
structure SourceFile.Has (f : SourceFile) (pos : Position) : Prop where
  file : pos.file = f.name
  first : 1 ≤ pos.line
  last : pos.line ≤ (Text.lines f.text).length
  text : ∃ line, (Text.lines f.text)[pos.line.toNat - 1]? = some line ∧ IsTrimmed line pos.text

/-- The position is one in a file that has a name and has been read. -/
def PointsInto (read : List SourceFile) (pos : Position) : Prop :=
  ∃ f ∈ read, f.name ≠ "" ∧ f.Has pos

theorem PointsInto.mono {read read' : List SourceFile} (h : read ⊆ read') {pos : Position}
    (hpos : PointsInto read pos) : PointsInto read' pos := by
  obtain ⟨f, hf, hname, hhas⟩ := hpos
  exact ⟨f, h hf, hname, hhas⟩

theorem places_pointsInto (read : List SourceFile) : Places (PointsInto read) where
  file := by
    rintro pos ⟨f, -, hname, hhas⟩
    rw [hhas.file]
    exact hname
  column := by
    rintro pos c ⟨f, hf, hname, hhas⟩
    exact ⟨f, hf, hname, hhas.file, hhas.first, hhas.last, hhas.text⟩

theorem isTrimmed_dropTrailing (line : String) :
    IsTrimmed line
      (String.ofList (Text.dropTrailing (fun c => c == ' ' || c == '\t') line.toList)) := by
  constructor
  · refine ⟨(line.toList.reverse.takeWhile fun c => c == ' ' || c == '\t').reverse, ?_, ?_⟩
    · rw [String.toList_ofList, Text.dropTrailing, ← List.reverse_append,
        List.takeWhile_append_dropWhile, List.reverse_reverse]
    · intro c hc
      rw [List.mem_reverse] at hc
      have hblank := List.mem_takeWhile_imp hc
      simpa using hblank
  · intro c hc
    rw [String.toList_ofList, Text.dropTrailing, List.getLast?_reverse] at hc
    have hkept := List.head?_dropWhile_not (fun c => c == ' ' || c == '\t') line.toList.reverse
    rw [hc] at hkept
    simpa using hkept

/-- The place of a line that has been read points into its file. -/
theorem pointsInto_linePosition {read : List SourceFile} {f : SourceFile} (hf : f ∈ read)
    (hname : f.name ≠ "") {i : Nat} {line : String} (hline : (Text.lines f.text)[i]? = some line) :
    PointsInto read (Reader.linePosition f.name (i + 1) line) := by
  have hlt : i < (Text.lines f.text).length := (List.getElem?_eq_some_iff.mp hline).1
  refine ⟨f, hf, hname, rfl, ?_, ?_, line, ?_, isTrimmed_dropTrailing line⟩
  · simp only [Reader.linePosition]
    omega
  · simp only [Reader.linePosition]
    omega
  · simpa [Reader.linePosition] using hline

end Eleven.Source

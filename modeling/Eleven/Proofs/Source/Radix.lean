import Eleven.Proofs.Source.Progress
import Eleven.Proofs.Source.StatementForms
import Eleven.Proofs.Text.PlainDigits
import Mathlib.Algebra.Group.Nat.Defs
import Mathlib.Data.List.TakeWhile

/-! The radix of plain numbers. It is octal until a line starts with the directive that makes it
decimal, and it is the same for all that stands on one line. Such a line counts even if it is
rejected for what follows the directive. -/
namespace Eleven.Source

/-- Plain digits are read by the radix in force. -/
theorem atom_number_iff (decimal : Bool) (digits : String) (n : Int64) :
    atom decimal (.number digits) = .ok (.number n) ↔ numeral? decimal digits = some n := by
  rw [atom]
  cases numeral? decimal digits <;> simp

section Directive

/-- What follows the name in a statement that starts with `.DECIMALNUMBERS`. -/
def radixTail? (ts : List Token) : Option (List Token) :=
  match takeLabels ts with
  | .ok (_, t :: rest) =>
    match t.lexeme with
    | .ident name => if Text.upper name = ".DECIMALNUMBERS" then some rest else none
    | _ => none
  | _ => none

/-- A line with the directive and nothing after it. -/
def directsRadix (line : String) : Bool :=
  match tokenize line with
  | .ok ts => radixTail? ts == some []
  | .error _ => false

/-- A line with the directive and something after it that does not make it an equation. -/
def spoilsRadix (line : String) : Bool :=
  match tokenize line with
  | .ok ts =>
    match radixTail? ts with
    | some (t :: _) => t.lexeme != .punct '='
    | _ => false
  | .error _ => false

variable (decimal : Bool) (pos : Position) {ts rest : List Token}

theorem radixTail?_eq_some :
    radixTail? ts = some rest ↔ ∃ labels t name, takeLabels ts = .ok (labels, t :: rest) ∧
      t.lexeme = .ident name ∧ Text.upper name = ".DECIMALNUMBERS" := by
  unfold radixTail?
  constructor
  · intro h
    split at h
    · next labels t more hlabels =>
      split at h
      · next name hname =>
        split at h
        · next hupper =>
          cases h
          exact ⟨labels, t, name, hlabels, hname, hupper⟩
        · cases h
      · cases h
    · cases h
  · rintro ⟨labels, t, name, hlabels, hname, hupper⟩
    simp only [hlabels, hname, hupper, if_true]

theorem setsDecimal_iff :
    setsDecimal ts = true ↔
      ∃ rest, radixTail? ts = some rest ∧ (acceptPunct '=' rest).1 = false := by
  unfold setsDecimal
  constructor
  · intro h
    split at h
    · next labels t rest hlabels =>
      split at h
      · next name hname =>
        simp only [Bool.and_eq_true, beq_iff_eq, Bool.not_eq_true'] at h
        exact ⟨rest, radixTail?_eq_some.mpr ⟨labels, t, name, hlabels, hname, h.1⟩, h.2⟩
      · cases h
    · cases h
  · rintro ⟨rest, htail, haccept⟩
    obtain ⟨labels, t, name, hlabels, hname, hupper⟩ := radixTail?_eq_some.mp htail
    simp [hlabels, hname, hupper, haccept]

theorem statement_of_tail (h : radixTail? ts = some rest) :
    ∃ labels pos', statement decimal pos ts = named decimal labels pos' ".DECIMALNUMBERS" rest := by
  obtain ⟨labels, t, name, hlabels, hname, hupper⟩ := radixTail?_eq_some.mp h
  refine ⟨labels, { pos with column := (t.column : Int) }, ?_⟩
  simp only [statement, hlabels, hname, hupper]

/-- The directive alone is accepted. -/
theorem statement_of_tail_nil (h : radixTail? ts = some []) :
    ∃ header, statement decimal pos ts = .ok (.command (.single header .decimalNumbers)) := by
  obtain ⟨labels, pos', hnamed⟩ := statement_of_tail decimal pos h
  rw [hnamed]
  exact ⟨⟨labels, ".DECIMALNUMBERS", pos'⟩, rfl⟩

/-- Nothing but an equation may follow. -/
theorem statement_of_tail_cons {t : Token} (h : radixTail? ts = some (t :: rest))
    (ht : t.lexeme ≠ .punct '=') : ∃ e, statement decimal pos ts = .error e := by
  obtain ⟨labels, pos', hnamed⟩ := statement_of_tail decimal pos h
  have haccept : acceptPunct '=' (t :: rest) = (false, t :: rest) := if_neg ht
  rw [hnamed, named, haccept]
  exact ⟨_, rfl⟩

theorem ofName?_eq_decimalNumbers {name : String}
    (h : Keyword.ofName? name = some .decimalNumbers) : name = ".DECIMALNUMBERS" := by
  obtain ⟨before, after, htable, -⟩ := List.lookup_eq_some_iff.mp h
  have hmem : (name, Keyword.decimalNumbers) ∈ Keyword.table := by
    rw [htable]
    exact List.mem_append_right _ List.mem_cons_self
  simpa [Keyword.table] using hmem

/-- The directive is accepted only alone. -/
theorem tail_of_formed {header : Header}
    (hs : (Statement.command (.single header .decimalNumbers)).Formed decimal pos ts) :
    radixTail? ts = some [] := by
  cases hs with
  | directive hlabels hname hk hargs =>
    cases keyword?_of_arguments hargs
    cases hargs
    exact radixTail?_eq_some.mpr ⟨_, _, _, hlabels, hname, ofName?_eq_decimalNumbers hk⟩

end Directive

section Readings

variable (file : String) (decimal : Bool) (number : Nat) (line : String)

/-- A line whose statement starts with the name of the directive is read as that statement. -/
theorem readTokens_of_tail {pos : Position} {ts rest : List Token}
    (h : radixTail? ts = some rest) :
    ∃ pos', (∀ s, statement decimal pos' ts = .ok s →
        Reader.readTokens decimal pos ts = .statement s) ∧
      ∀ e, statement decimal pos' ts = .error e → Reader.readTokens decimal pos ts = .failed e := by
  obtain ⟨labels, t, name, hlabels, hname, -⟩ := radixTail?_eq_some.mp h
  cases ts with
  | nil => cases hlabels
  | cons first more =>
    have hbrace : ¬ (first.lexeme = .punct '\x7d' ∧ more = []) := by
      rintro ⟨hfirst, rfl⟩
      cases hlabels
      rw [hname] at hfirst
      cases hfirst
    refine ⟨{ pos with column := (first.column : Int) }, fun s hs => ?_, fun e he => ?_⟩
    · simp only [Reader.readTokens, if_neg hbrace, hs]
    · simp only [Reader.readTokens, if_neg hbrace, he]

theorem directsRadix_iff :
    directsRadix line = true ↔ ∃ header, (Reader.readLine file decimal number line).1 =
      .statement (.command (.single header .decimalNumbers)) := by
  unfold directsRadix Reader.readLine
  cases htokens : tokenize line with
  | error f =>
    constructor
    · intro h
      cases h
    · rintro ⟨header, h⟩
      cases h
  | ok ts =>
    simp only [beq_iff_eq]
    constructor
    · intro htail
      obtain ⟨pos', haccepted, -⟩ := readTokens_of_tail decimal htail
      obtain ⟨header, hs⟩ := statement_of_tail_nil decimal pos' htail
      exact ⟨header, haccepted _ hs⟩
    · rintro ⟨header, h⟩
      obtain ⟨pos, hformed⟩ := formed_of_readTokens h
      exact tail_of_formed decimal pos hformed

theorem failed_of_spoilsRadix (h : spoilsRadix line = true) :
    ∃ e, (Reader.readLine file decimal number line).1 = .failed e := by
  unfold spoilsRadix at h
  unfold Reader.readLine
  split at h
  · next ts htokens =>
    rw [htokens]
    split at h
    · next t rest htail =>
      obtain ⟨pos', -, hrejected⟩ := readTokens_of_tail decimal htail
      obtain ⟨e, he⟩ := statement_of_tail_cons decimal pos' htail (bne_iff_ne.mp h)
      exact ⟨e, hrejected e he⟩
    · cases h
  · cases h

/-- The radix is switched by the directive, alone or spoilt. -/
theorem readLine_snd :
    (Reader.readLine file decimal number line).2 =
      (decimal || (directsRadix line || spoilsRadix line)) := by
  unfold Reader.readLine directsRadix spoilsRadix
  cases tokenize line with
  | error f => simp
  | ok ts =>
    dsimp only
    congr 1
    rw [Bool.eq_iff_iff, setsDecimal_iff]
    cases radixTail? ts with
    | none => simp
    | some rest =>
      cases rest with
      | nil => simp [acceptPunct]
      | cons t rest => simp [acceptPunct, apply_ite Prod.fst]

end Readings

section Lines

/-- Whether plain numbers on line `i`, counted from zero, are decimal. -/
def radixAt (lines : List String) (i : Nat) : Bool :=
  (lines.take i).any fun line => directsRadix line || spoilsRadix line

/-- What line `i` amounts to, by the radix in force there. -/
def lineReading? (file : String) (lines : List String) (i : Nat) : Option LineReading :=
  lines[i]?.map fun line => (Reader.readLine file (radixAt lines i) (i + 1) line).1

/-- Line `i` is accepted as the directive. -/
def AcceptedAt (file : String) (lines : List String) (i : Nat) : Prop :=
  ∃ header, lineReading? file lines i = some (.statement (.command (.single header .decimalNumbers)))

def RejectedAt (file : String) (lines : List String) (i : Nat) : Prop :=
  ∃ e, lineReading? file lines i = some (.failed e)

/-- Line `i` is the directive with something after it. -/
def SpoiltAt (lines : List String) (i : Nat) : Prop :=
  ∃ line, lines[i]? = some line ∧ spoilsRadix line = true

variable {file : String} {lines : List String} {i : Nat} {line : String}

theorem radixAt_succ (h : lines[i]? = some line) :
    radixAt lines (i + 1) = (radixAt lines i || (directsRadix line || spoilsRadix line)) := by
  simp [radixAt, List.take_add_one, h]

theorem readLine_radixAt (h : lines[i]? = some line) :
    Reader.readLine file (radixAt lines i) (i + 1) line =
      ((Reader.readLine file (radixAt lines i) (i + 1) line).1, radixAt lines (i + 1)) := by
  rw [radixAt_succ h, ← readLine_snd]

theorem acceptedAt_iff :
    AcceptedAt file lines i ↔ ∃ line, lines[i]? = some line ∧ directsRadix line = true := by
  unfold AcceptedAt lineReading?
  simp only [Option.map_eq_some_iff, directsRadix_iff file (radixAt lines i) (i + 1)]
  constructor
  · rintro ⟨header, line, hline, hread⟩
    exact ⟨line, hline, header, hread⟩
  · rintro ⟨line, hline, header, hread⟩
    exact ⟨header, line, hline, hread⟩

theorem SpoiltAt.rejectedAt (h : SpoiltAt lines i) : RejectedAt file lines i := by
  obtain ⟨line, hline, hspoils⟩ := h
  obtain ⟨e, he⟩ := failed_of_spoilsRadix file (radixAt lines i) (i + 1) line hspoils
  refine ⟨e, ?_⟩
  rw [lineReading?, hline, Option.map_some, he]

theorem AcceptedAt.not_rejectedAt (h : AcceptedAt file lines i) : ¬ RejectedAt file lines i := by
  obtain ⟨header, hread⟩ := h
  rintro ⟨e, he⟩
  rw [hread] at he
  cases he

theorem radixAt_iff (file : String) :
    radixAt lines i = true ↔ ∃ j < i, AcceptedAt file lines j ∨ SpoiltAt lines j := by
  have hmem : ∀ line, line ∈ lines.take i ↔ ∃ j < i, lines[j]? = some line := by
    intro line
    simp [List.mem_iff_getElem?, List.getElem?_take]
  simp only [radixAt, List.any_eq_true, Bool.or_eq_true, hmem, acceptedAt_iff, SpoiltAt]
  constructor
  · rintro ⟨line, ⟨j, hj, hline⟩, h⟩
    exact ⟨j, hj, h.imp (fun h => ⟨line, hline, h⟩) fun h => ⟨line, hline, h⟩⟩
  · rintro ⟨j, hj, ⟨line, hline, h⟩ | ⟨line, hline, h⟩⟩
    · exact ⟨line, ⟨j, hj, hline⟩, .inl h⟩
    · exact ⟨line, ⟨j, hj, hline⟩, .inr h⟩

/-- A rejected line keeps the radix, unless it is the directive spoilt. -/
theorem RejectedAt.radixAt_succ_iff (h : RejectedAt file lines i) :
    radixAt lines (i + 1) = radixAt lines i ↔ (SpoiltAt lines i → radixAt lines i = true) := by
  obtain ⟨e, he⟩ := h
  obtain ⟨line, hline, hread⟩ := Option.map_eq_some_iff.mp he
  have hdirects : directsRadix line = false := by
    rw [Bool.eq_false_iff, Ne, directsRadix_iff file (radixAt lines i) (i + 1)]
    rintro ⟨header, haccepted⟩
    rw [hread] at haccepted
    cases haccepted
  have hspoilt : SpoiltAt lines i ↔ spoilsRadix line = true := by
    simp [SpoiltAt, hline]
  rw [radixAt_succ hline, hdirects, hspoilt]
  cases radixAt lines i <;> cases spoilsRadix line <;> simp

/-- Only accepted directives count where none is spoilt before the first accepted one. -/
theorem radixAt_iff_accepted :
    (∀ i, radixAt lines i = true ↔ ∃ j < i, AcceptedAt file lines j) ↔
      ∀ j, SpoiltAt lines j → ∃ i < j, AcceptedAt file lines i := by
  constructor
  · intro hlaw j hj
    have hset : radixAt lines (j + 1) = true :=
      (radixAt_iff file).mpr ⟨j, Nat.lt_succ_self j, .inr hj⟩
    obtain ⟨i, hi, haccepted⟩ := (hlaw (j + 1)).mp hset
    have hne : i ≠ j := by
      rintro rfl
      exact haccepted.not_rejectedAt hj.rejectedAt
    exact ⟨i, by omega, haccepted⟩
  · intro hearlier i
    rw [radixAt_iff file]
    constructor
    · rintro ⟨j, hj, haccepted | hspoilt⟩
      · exact ⟨j, hj, haccepted⟩
      · obtain ⟨k, hk, haccepted⟩ := hearlier j hspoilt
        exact ⟨k, by omega, haccepted⟩
    · rintro ⟨j, hj, haccepted⟩
      exact ⟨j, hj, .inl haccepted⟩

end Lines

namespace Reader

/-- The outcome of reading lines each of which has a radix of its own, and the number of lines taken
then. -/
def scanBy (file : String) (radix : Nat → Bool) :
    List OpenBlock → Option OpenBlock → Nat → List String → Option (Except Failure Command) × Nat
  | _, some b, taken, [] =>
    (some (.error ((Complaint.inDirective ".REPEAT" .expectedBrace).failure b.header.position)), taken)
  | [], none, taken, [] => (none, taken)
  | b :: _, none, taken, [] =>
    (some (.error ((Complaint.inDirective ".REPEAT" .missingBrace).failure b.header.position)), taken)
  | blocks, some b, taken, line :: rest =>
    match braceLine line with
    | .empty => scanBy file radix blocks (some b) (taken + 1) rest
    | .brace => scanBy file radix (b :: blocks) none (taken + 1) rest
    | .failed f => (some (.error ((Complaint.lexical f).failure b.header.position)), taken)
    | .other =>
      (some (.error ((Complaint.inDirective ".REPEAT" .expectedBrace).failure b.header.position)),
        taken)
  | blocks, none, taken, line :: rest =>
    match (readLine file (radix taken) (taken + 1) line).1 with
    | .empty => scanBy file radix blocks none (taken + 1) rest
    | .failed e => (some (.error e), taken + 1)
    | .statement (.opening h count true) =>
      scanBy file radix (⟨h, count, []⟩ :: blocks) none (taken + 1) rest
    | .statement (.opening h count false) =>
      scanBy file radix blocks (some ⟨h, count, []⟩) (taken + 1) rest
    | .statement (.command c) =>
      match blocks with
      | [] => (some (.ok c), taken + 1)
      | b :: outer => scanBy file radix (b.push c :: outer) none (taken + 1) rest
    | .closing pos =>
      match blocks with
      | [] => (some (.error (Complaint.failure pos .strayBrace)), taken + 1)
      | [b] => (some (.ok b.close), taken + 1)
      | b :: outer :: more => scanBy file radix (outer.push b.close :: more) none (taken + 1) rest

/-- The reader of a file that has taken some lines. -/
def atLine (file : String) (lines : List String) (taken : Nat) : Reader :=
  ⟨file, lines.drop taken, taken, radixAt lines taken⟩

section Scanning

variable {file : String} {lines rest : List String} {taken : Nat}

/-- Lines between the head of a block and its brace are no directives. -/
theorem radixAt_succ_of_braceLine {line : String} (hline : lines[taken]? = some line)
    (h : braceLine line = .empty ∨ braceLine line = .brace) :
    radixAt lines (taken + 1) = radixAt lines taken := by
  have hnone : ∀ ts, tokenize line = .ok ts → radixTail? ts = none →
      (directsRadix line || spoilsRadix line) = false := by
    intro ts htokens htail
    simp [directsRadix, spoilsRadix, htokens, htail]
  rw [radixAt_succ hline]
  unfold braceLine at h
  split at h
  · simp at h
  · next htokens => rw [hnone [] htokens rfl, Bool.or_false]
  · next t htokens =>
    split at h
    · next hbrace =>
      have htail : radixTail? [t] = none := by
        simp only [radixTail?, takeLabels, hbrace]
      rw [hnone [t] htokens htail, Bool.or_false]
    · simp at h
  · simp at h

/-- Reading with a radix that lines switch is reading each line by the radix in force there. -/
theorem scan_eq_scanBy (blocks : List OpenBlock) (wanted : Option OpenBlock)
    (h : Remain lines taken rest) :
    scan file blocks wanted (radixAt lines taken) taken rest =
      ((scanBy file (radixAt lines) blocks wanted taken rest).1,
        atLine file lines (scanBy file (radixAt lines) blocks wanted taken rest).2) := by
  have hdrop : lines.drop taken = rest := h.eq_drop.symm
  induction rest generalizing blocks wanted taken with
  | nil =>
    rcases wanted with _ | b
    · cases blocks with
      | nil => simp only [scan, scanBy, atLine, hdrop]
      | cons b outer => simp only [scan, scanBy, fail, atLine, hdrop]
    · simp only [scan, scanBy, fail, atLine, hdrop]
  | cons line rest ih =>
    have hline := h.getElem?
    have hgo : lines.drop (taken + 1) = rest := h.tail.eq_drop.symm
    have ih := fun blocks wanted => ih blocks wanted h.tail hgo
    cases wanted with
    | some b =>
      rw [scan, scanBy]
      cases hbrace : braceLine line with
      | empty =>
        dsimp only
        rw [← radixAt_succ_of_braceLine hline (.inl hbrace)]
        exact ih blocks (some b)
      | brace =>
        dsimp only
        rw [← radixAt_succ_of_braceLine hline (.inr hbrace)]
        exact ih (b :: blocks) none
      | failed f => simp only [fail, atLine, hdrop]
      | other => simp only [fail, atLine, hdrop]
    | none =>
      rw [scan, scanBy, readLine_radixAt hline]
      cases (readLine file (radixAt lines taken) (taken + 1) line).1 with
      | empty => exact ih blocks none
      | failed e => simp only [atLine, hgo]
      | closing pos =>
        rcases blocks with _ | ⟨b, _ | ⟨outer, more⟩⟩
        · simp only [fail, atLine, hgo]
        · simp only [atLine, hgo]
        · exact ih (outer.push b.close :: more) none
      | statement s =>
        cases s with
        | opening h count braced =>
          cases braced with
          | true => exact ih (⟨h, count, []⟩ :: blocks) none
          | false => exact ih blocks (some ⟨h, count, []⟩)
        | command c =>
          cases blocks with
          | nil => simp only [atLine, hgo]
          | cons b outer => exact ih (b.push c :: outer) none

theorem next_atLine (h : taken ≤ lines.length) :
    (atLine file lines taken).next =
      ((scanBy file (radixAt lines) [] none taken (lines.drop taken)).1,
        atLine file lines (scanBy file (radixAt lines) [] none taken (lines.drop taken)).2) :=
  scan_eq_scanBy [] none ⟨rfl, h⟩

theorem afterCalls_eq_atLine (file text : String) (k : Nat) :
    (ofSource file text).afterCalls k =
      atLine file (Text.lines text) ((ofSource file text).afterCalls k).taken := by
  induction k with
  | zero => rfl
  | succ k ih =>
    have hwithin := (within_ofSource file text).afterCalls k
    rw [afterCalls_succ, ih, next_atLine hwithin.remain.taken_le]
    rfl

/-- The calls read each line of a file by the radix in force there. -/
theorem next_eq_scanBy {file text : String} {k : Nat} {r : Reader}
    (hr : (ofSource file text).afterCalls k = r) :
    (r.next.1, r.next.2.taken) =
      scanBy file (radixAt (Text.lines text)) [] none r.taken r.lines := by
  have hwithin : r.Within file (Text.lines text) := hr ▸ (within_ofSource file text).afterCalls k
  have hline : r = atLine file (Text.lines text) r.taken := hr ▸ afterCalls_eq_atLine file text k
  have hnext : (atLine file (Text.lines text) r.taken).next = _ :=
    next_atLine hwithin.remain.taken_le
  rw [← hline] at hnext
  rw [hnext, hwithin.remain.eq_drop]
  rfl

end Scanning

end Reader

/-- Each line is read by the radix in force there, and digits mean what they do in that radix. It is
decimal from the first line on that follows the directive, which counts even where something after it
makes the line fail. These are the only failures that switch the radix, and accepted directives alone
decide exactly where each of them comes after an accepted one. -/
theorem radix_of_lines (file text : String) :
    (∀ k r, (Reader.ofSource file text).afterCalls k = r →
      (r.next.1, r.next.2.taken) =
        Reader.scanBy file (radixAt (Text.lines text)) [] none r.taken r.lines) ∧
    (∀ decimal cs n, cs ≠ [] → (∀ c ∈ cs, c.isDigit = true) →
      (atom decimal (.number (String.ofList cs)) = .ok (.number n) ↔
        (∀ c ∈ cs, c.toNat - '0'.toNat < Text.plainRadix decimal) ∧
          Nat.ofDigitChars (Text.plainRadix decimal) cs 0 < 2 ^ 63 ∧
          n = Int64.ofNat (Nat.ofDigitChars (Text.plainRadix decimal) cs 0))) ∧
    (∀ i, radixAt (Text.lines text) i = true ↔
      ∃ j < i, AcceptedAt file (Text.lines text) j ∨ SpoiltAt (Text.lines text) j) ∧
    (∀ i, SpoiltAt (Text.lines text) i → RejectedAt file (Text.lines text) i) ∧
    (∀ i, RejectedAt file (Text.lines text) i →
      (radixAt (Text.lines text) (i + 1) = radixAt (Text.lines text) i ↔
        (SpoiltAt (Text.lines text) i → radixAt (Text.lines text) i = true))) ∧
    ((∀ i, radixAt (Text.lines text) i = true ↔ ∃ j < i, AcceptedAt file (Text.lines text) j) ↔
      ∀ j, SpoiltAt (Text.lines text) j → ∃ i < j, AcceptedAt file (Text.lines text) i) :=
  ⟨fun _ _ hr => Reader.next_eq_scanBy hr,
    fun decimal _ n hne hcs => (atom_number_iff decimal _ n).trans
      (Text.numeral?_digits hne hcs decimal n),
    fun _ => radixAt_iff file, fun _ h => h.rejectedAt, fun _ h => h.radixAt_succ_iff,
    radixAt_iff_accepted⟩

/-- A spoilt directive after an accepted one changes nothing. -/
theorem radix_of_lines_twice :
    ∀ i, radixAt (Text.lines ".DECIMALNUMBERS\n.DECIMALNUMBERS 5\n.WORD 19") i = true ↔
      ∃ j < i, AcceptedAt "a" (Text.lines ".DECIMALNUMBERS\n.DECIMALNUMBERS 5\n.WORD 19") j := by
  have hlines : Text.lines ".DECIMALNUMBERS\n.DECIMALNUMBERS 5\n.WORD 19" =
      [".DECIMALNUMBERS", ".DECIMALNUMBERS 5", ".WORD 19"] := by decide +kernel
  apply (radix_of_lines "a" ".DECIMALNUMBERS\n.DECIMALNUMBERS 5\n.WORD 19").2.2.2.2.2.mpr
  rw [hlines]
  rintro (_ | j) ⟨line, hline, hspoils⟩
  · cases hline
    exact absurd hspoils (by decide +kernel)
  · exact ⟨0, Nat.succ_pos j, acceptedAt_iff.mpr ⟨".DECIMALNUMBERS", rfl, by decide +kernel⟩⟩

/-- The directive fails for what follows it, and makes the numbers after it decimal all the same. -/
theorem radix_after_spoilt :
    RejectedAt "a" (Text.lines ".DECIMALNUMBERS 5\n.WORD 10") 0 ∧
      (∀ j, ¬ AcceptedAt "a" (Text.lines ".DECIMALNUMBERS 5\n.WORD 10") j) ∧
      radixAt (Text.lines ".DECIMALNUMBERS 5\n.WORD 10") 0 = false ∧
      radixAt (Text.lines ".DECIMALNUMBERS 5\n.WORD 10") 1 = true ∧
      lineReading? "a" (Text.lines ".DECIMALNUMBERS 5\n.WORD 10") 1 =
        some (.statement (.command
          (.single ⟨[], ".WORD", ⟨"a", 2, 1, ".WORD 10"⟩⟩ (.words [.int 10])))) := by
  have hlines : Text.lines ".DECIMALNUMBERS 5\n.WORD 10" = [".DECIMALNUMBERS 5", ".WORD 10"] := by
    decide +kernel
  have hset : radixAt [".DECIMALNUMBERS 5", ".WORD 10"] 1 = true := by decide +kernel
  have htokens : tokenize ".WORD 10" = .ok [⟨.ident ".WORD", 1⟩, ⟨.number "10", 7⟩] := by
    decide +kernel
  have hplace : Reader.linePosition "a" 2 ".WORD 10" = ⟨"a", 2, 1, ".WORD 10"⟩ := by
    decide +kernel
  rw [hlines]
  refine ⟨?_, ?_, rfl, hset, ?_⟩
  · exact SpoiltAt.rejectedAt ⟨".DECIMALNUMBERS 5", rfl, by decide +kernel⟩
  · intro j hj
    obtain ⟨line, hline, hdirects⟩ := acceptedAt_iff.mp hj
    have hnone : ∀ line ∈ [".DECIMALNUMBERS 5", ".WORD 10"], directsRadix line = false :=
      List.forall_mem_cons.mpr ⟨by decide +kernel, List.forall_mem_singleton.mpr (by decide +kernel)⟩
    rw [hnone line (List.mem_of_getElem? hline)] at hdirects
    cases hdirects
  · simp only [lineReading?, List.getElem?_cons_succ, List.getElem?_cons_zero, Option.map_some, hset,
      Reader.readLine, htokens, hplace]
    rfl

end Eleven.Source

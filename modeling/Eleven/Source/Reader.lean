import Eleven.Source.Statement
import Eleven.Text.Split

/-! Reading commands off the lines of a file. -/
namespace Eleven.Source

structure Reader where
  file : String
  /-- The lines not yet taken. -/
  lines : List String
  /-- The number of lines taken. -/
  taken : Nat
  /-- Whether plain numbers are decimal. -/
  decimal : Bool
deriving Repr, Inhabited

/-- A block whose closing brace has not been met; its commands stand last first. -/
structure OpenBlock where
  header : Header
  count : Lazy
  body : List Command

namespace OpenBlock

def push (b : OpenBlock) (c : Command) : OpenBlock := { b with body := c :: b.body }

def close (b : OpenBlock) : Command := .repetition b.header b.count b.body.reverse

end OpenBlock

/-- What one line amounts to. -/
inductive LineReading where
  | empty
  /-- A closing brace alone. -/
  | closing (pos : Position)
  | statement (s : Statement)
  | failed (e : Failure)

namespace Reader

def ofSource (file text : String) : Reader := ⟨file, Text.lines text, 0, false⟩

/-- The place of a line as a whole. -/
def linePosition (file : String) (number : Nat) (line : String) : Position :=
  ⟨file, (number : Int), 1,
    String.ofList (Text.dropTrailing (fun c => c == ' ' || c == '\t') line.toList)⟩

def readTokens (decimal : Bool) (pos : Position) : List Token → LineReading
  | [] => .empty
  | t :: ts =>
    let pos := { pos with column := (t.column : Int) }
    if t.lexeme = .punct '\x7d' ∧ ts = [] then .closing pos
    else match Source.statement decimal pos (t :: ts) with
      | .ok s => .statement s
      | .error e => .failed e

/-- Reads one line, and tells the radix in force after it. -/
def readLine (file : String) (decimal : Bool) (number : Nat) (line : String) : LineReading × Bool :=
  let pos := linePosition file number line
  match tokenize line with
  | .error f => (.failed ((Complaint.lexical f).failure pos), decimal)
  | .ok ts => (readTokens decimal pos ts, decimal || setsDecimal ts)

/-- Whether a line holds nothing but the opening brace that a block still needs. -/
inductive BraceLine where
  | empty
  | brace
  | other
  | failed (f : LexicalFault)

def braceLine (line : String) : BraceLine :=
  match tokenize line with
  | .error f => .failed f
  | .ok [] => .empty
  | .ok [t] => if t.lexeme = .punct '\x7b' then .brace else .other
  | .ok _ => .other

/-- The outcome of reading: a command or a failure, if there is one, and the reader after it. -/
abbrev Result := Option (Except Failure Command) × Reader

def fail (pos : Position) (c : Complaint) (after : Reader) : Result :=
  (some (.error (c.failure pos)), after)

/-- Reads lines until a command is complete. The first argument holds the blocks around the
current line, innermost first; the second is a block whose opening brace must come next. A failure
abandons every open block. A line that should have been an opening brace is left for the next
command. -/
def scan (file : String) :
    List OpenBlock → Option OpenBlock → Bool → Nat → List String → Result
  | _, some b, decimal, taken, [] =>
    fail b.header.position (.inDirective ".REPEAT" .expectedBrace) ⟨file, [], taken, decimal⟩
  | [], none, decimal, taken, [] => (none, ⟨file, [], taken, decimal⟩)
  | b :: _, none, decimal, taken, [] =>
    fail b.header.position (.inDirective ".REPEAT" .missingBrace) ⟨file, [], taken, decimal⟩
  | blocks, some b, decimal, taken, line :: rest =>
    match braceLine line with
    | .empty => scan file blocks (some b) decimal (taken + 1) rest
    | .brace => scan file (b :: blocks) none decimal (taken + 1) rest
    | .failed f => fail b.header.position (.lexical f) ⟨file, line :: rest, taken, decimal⟩
    | .other =>
      fail b.header.position (.inDirective ".REPEAT" .expectedBrace)
        ⟨file, line :: rest, taken, decimal⟩
  | blocks, none, decimal, taken, line :: rest =>
    match readLine file decimal (taken + 1) line with
    | (.empty, decimal) => scan file blocks none decimal (taken + 1) rest
    | (.failed e, decimal) => (some (.error e), ⟨file, rest, taken + 1, decimal⟩)
    | (.statement (.opening h count true), decimal) =>
      scan file (⟨h, count, []⟩ :: blocks) none decimal (taken + 1) rest
    | (.statement (.opening h count false), decimal) =>
      scan file blocks (some ⟨h, count, []⟩) decimal (taken + 1) rest
    | (.statement (.command c), decimal) =>
      match blocks with
      | [] => (some (.ok c), ⟨file, rest, taken + 1, decimal⟩)
      | b :: outer => scan file (b.push c :: outer) none decimal (taken + 1) rest
    | (.closing pos, decimal) =>
      match blocks with
      | [] => fail pos .strayBrace ⟨file, rest, taken + 1, decimal⟩
      | [b] => (some (.ok b.close), ⟨file, rest, taken + 1, decimal⟩)
      | b :: outer :: more => scan file (outer.push b.close :: more) none decimal (taken + 1) rest

/-- The next command; nothing at the end of the file. -/
def next (r : Reader) : Result := scan r.file [] none r.decimal r.taken r.lines

/-- Reads on, also after failures. -/
def readAll : Nat → Reader → List (Except Failure Command)
  | 0, _ => []
  | room + 1, r =>
    match r.next with
    | (none, _) => []
    | (some c, after) => c :: readAll room after

/-- Every command and failure of a source, in order. Each takes a line at least. -/
def commands (file text : String) : List (Except Failure Command) :=
  let r := ofSource file text
  readAll r.lines.length r

end Reader

end Eleven.Source

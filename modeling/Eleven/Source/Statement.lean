import Eleven.Failure.Problem
import Eleven.Source.Command
import Eleven.Text.LowerCase

/-! One line of tokens as a statement. -/
namespace Eleven.Source

/-- A command, or the head of a block that further lines fill. -/
inductive Statement where
  | command (c : Command)
  /-- A block; `braced` tells whether its opening brace stands on the line itself. -/
  | opening (header : Header) (count : Lazy) (braced : Bool)

/-- The labels at the front of a line. -/
def takeLabels : List Token → Except Complaint (List String × List Token)
  | t :: colon :: rest =>
    match t.lexeme with
    | .ident name =>
      if colon.lexeme = .punct ':' ∧ isDotted name = false then
        if (Machine.Register.ofName? name).isSome then .error (.registerAsLabel (Text.upper name))
        else do
          let (labels, after) ← takeLabels rest
          .ok (Text.upper name :: labels, after)
      else .ok ([], t :: colon :: rest)
    | _ => .ok ([], t :: colon :: rest)
  | ts => .ok ([], ts)

/-- Expressions with commas between them. -/
def expressionList (decimal : Bool) : Nat → List Token → Except Complaint (List Lazy × List Token)
  | 0, _ => .error .expectedExpression
  | room + 1, ts => do
    let (v, rest) ← lazyExpression decimal ts
    match acceptPunct ',' rest with
    | (true, rest) =>
      let (vs, rest) ← expressionList decimal room rest
      .ok (v :: vs, rest)
    | (false, rest) => .ok ([v], rest)

/-- A quoted text that must stand here. -/
def expectText : List Token → Except Complaint (String × List Token)
  | t :: rest =>
    match t.lexeme with
    | .text s => .ok (s, rest)
    | _ => .error .expectedText
  | [] => .error .expectedText

/-- A quoted text that may stand here. -/
def optionalText : List Token → String × List Token
  | t :: rest =>
    match t.lexeme with
    | .text s => (s, rest)
    | _ => ("", t :: rest)
  | [] => ("", [])

/-- The name of a dialect, quoted or not, in lower case. -/
def expectDialect : List Token → Except Complaint (String × List Token)
  | t :: rest =>
    match t.lexeme with
    | .ident s => .ok (String.ofList (s.toList.map Text.lowerCase), rest)
    | .text s => .ok (String.ofList (s.toList.map Text.lowerCase), rest)
    | _ => .error .expectedDialect
  | [] => .error .expectedDialect

def expectName : List Token → Except Complaint (String × List Token)
  | t :: rest =>
    match t.lexeme with
    | .ident s => .ok (Text.upper s, rest)
    | _ => .error .expectedName
  | [] => .error .expectedName

/-- The arguments of a directive that is not a block. -/
def arguments (decimal : Bool) : Keyword → List Token → Except Complaint (Operation × List Token)
  | .link, ts => do
    let (v, rest) ← lazyExpression decimal ts
    .ok (.link v, rest)
  | .reserveBytes, ts => do
    let (v, rest) ← lazyExpression decimal ts
    .ok (.reserveBytes v, rest)
  | .reserveWords, ts => do
    let (v, rest) ← lazyExpression decimal ts
    .ok (.reserveWords v, rest)
  | .align, ts => do
    let (v, rest) ← lazyExpression decimal ts
    .ok (.align v, rest)
  | .bytes, ts => do
    let (vs, rest) ← expressionList decimal (ts.length + 1) ts
    .ok (.bytes vs, rest)
  | .words, ts => do
    let (vs, rest) ← expressionList decimal (ts.length + 1) ts
    .ok (.words vs, rest)
  | .includeFile, ts => do
    let (s, rest) ← expectText ts
    .ok (.includeFile s, rest)
  | .insertFile, ts => do
    let (s, rest) ← expectText ts
    .ok (.insertFile s, rest)
  | .ascii, ts => do
    let (s, rest) ← expectText ts
    .ok (.ascii s, rest)
  | .asciz, ts => do
    let (s, rest) ← expectText ts
    .ok (.asciz s, rest)
  | .makeRaw, ts => .ok (.makeArtifact ⟨.raw, (optionalText ts).1⟩, (optionalText ts).2)
  | .makeBin, ts => .ok (.makeArtifact ⟨.bin, (optionalText ts).1⟩, (optionalText ts).2)
  | .dialect, ts => do
    let (s, rest) ← expectDialect ts
    .ok (.dialect s, rest)
  | .equate, ts => do
    let (name, rest) ← expectName ts
    let rest ← expectPunct ',' rest
    let (v, rest) ← lazyExpression decimal rest
    .ok (.equate name v, rest)
  | .thisMachine, ts => .ok (.thisMachine, ts)
  | .otherMachine, ts => .ok (.otherMachine, ts)
  | .endOfSource, ts => .ok (.endOfSource, ts)
  | .even, ts => .ok (.even, ts)
  | .koi8r, ts => .ok (.koi8r, ts)
  | .decimalNumbers, ts => .ok (.decimalNumbers, ts)
  | .repetition, ts => .ok (.nothing, ts)

/-- The count of a block and its opening brace, if that stands on the same line. -/
def blockHead (decimal : Bool) (ts : List Token) : Except Complaint (Lazy × Bool) := do
  let (v, rest) ← lazyExpression decimal ts
  match acceptPunct '\x7b' rest with
  | (true, []) => .ok (v, true)
  | (true, _ :: _) => .error .bodyOnSameLine
  | (false, []) => .ok (v, false)
  | (false, _ :: _) => .error .expectedBrace

/-- Nothing may follow the arguments. -/
def finished (a : Operation × List Token) : Except Complaint Operation :=
  match a.2 with
  | [] => .ok a.1
  | t :: _ => .error (.trailing t.lexeme.value)

/-- A directive by its keyword. Complaints about it start with its name. -/
def directive (decimal : Bool) (h : Header) (k : Keyword) (ts : List Token) :
    Except Complaint Statement :=
  match k with
  | .repetition =>
    match blockHead decimal ts with
    | .ok (v, braced) => .ok (.opening h v braced)
    | .error c => .error (.inDirective h.mnemonic c)
  | k =>
    match arguments decimal k ts >>= finished with
    | .ok o => .ok (.command (.single h o))
    | .error c => .error (.inDirective h.mnemonic c)

/-- What follows the sign in `NAME = expression`. -/
def equation (decimal : Bool) (h : Header) (name : String) (ts : List Token) :
    Except Complaint Statement := do
  let (v, rest) ← lazyExpression decimal ts
  match finished (.equate name v, rest) with
  | .ok o => .ok (.command (.single h o))
  | .error c => .error (.inDirective h.mnemonic c)

def instruction (decimal : Bool) (h : Header) (ts : List Token) : Except Complaint Statement := do
  let kinds := match Machine.Instruction.ofName? h.mnemonic with
    | some i => operandKinds i.kind
    | none => []
  let os ← operands decimal kinds ts
  .ok (.command (.single h (.instruction os)))

/-- A command that starts with a name. -/
def named (decimal : Bool) (labels : List String) (pos : Position) (name : String)
    (ts : List Token) : Except Failure Statement :=
  match acceptPunct '=' ts with
  | (true, rest) => (equation decimal ⟨labels, ".EQU", pos⟩ name rest).mapError (·.failure pos)
  | (false, _) =>
    if isDotted name then
      match Keyword.ofName? name with
      | none => .error ((Problem.unknownDirective name).failure pos)
      | some k => (directive decimal ⟨labels, name, pos⟩ k ts).mapError (·.failure pos)
    else (instruction decimal ⟨labels, name, pos⟩ ts).mapError (·.failure pos)

/-- The statement on a line that holds tokens. The place of a command is that of its name. -/
def statement (decimal : Bool) (pos : Position) (ts : List Token) : Except Failure Statement :=
  match takeLabels ts with
  | .error c => .error (c.failure pos)
  | .ok (labels, []) => .ok (.command (.single ⟨labels, "", pos⟩ .nothing))
  | .ok (labels, t :: rest) =>
    let pos := { pos with column := (t.column : Int) }
    match t.lexeme with
    | .ident name => named decimal labels pos (Text.upper name) rest
    | l => .error (Complaint.failure pos (.expectedCommand l.value))

/-- Whether the statement is one that makes plain numbers decimal. It does so even if something that
does not belong there follows it. -/
def setsDecimal (ts : List Token) : Bool :=
  match takeLabels ts with
  | .ok (_, t :: rest) =>
    match t.lexeme with
    | .ident name => Text.upper name == ".DECIMALNUMBERS" && !(acceptPunct '=' rest).1
    | _ => false
  | _ => false

end Eleven.Source

import Eleven.Machine.Instruction
import Eleven.Machine.Mode
import Eleven.Source.Expr

/-! Operands of instructions. -/
namespace Eleven.Source

open Eleven.Machine (Mode Register OperandClass)

inductive OperandKind where
  /-- An operand in an addressing mode. -/
  | address
  | register
  /-- A branch target or a small constant. -/
  | expression
deriving DecidableEq, Repr, Inhabited

structure Operand where
  kind : OperandKind
  mode : Mode
  register : Register
  /-- The word that follows the instruction, or the value of an expression. -/
  value : Option Lazy
  /-- The word is stored as a distance from the program counter. -/
  relative : Bool
  /-- The operand as it is written, without blanks. -/
  raw : String
deriving Inhabited

namespace Operand

def field (o : Operand) : UInt16 := Machine.operandField o.mode o.register

/-- An operand in an addressing mode without a word of its own. -/
def inMode (m : Mode) (r : Register) : Operand := ⟨.address, m, r, none, false, ""⟩

/-- An operand in an addressing mode that takes a word. -/
def withWord (m : Mode) (r : Register) (v : Lazy) : Operand := ⟨.address, m, r, some v, false, ""⟩

/-- An operand that names a place by its address. -/
def relativeTo (m : Mode) (v : Lazy) : Operand := ⟨.address, m, Register.pc, some v, true, ""⟩

end Operand

/-- The operand shapes that a class of instructions calls for; further operands are addresses. -/
def operandKinds : OperandClass → List OperandKind
  | .branch => [.expression]
  | .immediate => [.expression]
  | .rts => [.register]
  | .sob => [.register, .expression]
  | .register => [.register, .address]
  | .registerSource => [.address, .register]
  | _ => []

/-- The register that a lexeme names. -/
def registerOf? : Lexeme → Option Register
  | .ident name => Register.ofName? name
  | _ => none

/-- The register of `(Rn)` at the front, and what follows it. -/
def parenthesized? : List Token → Option (Register × List Token)
  | a :: r :: b :: rest =>
    if a.lexeme = .punct '(' ∧ b.lexeme = .punct ')' then
      (registerOf? r.lexeme).map fun reg => (reg, rest)
    else none
  | _ => none

/-- Takes a mark if it stands here. -/
def acceptPunct (c : Char) : List Token → Bool × List Token
  | [] => (false, [])
  | t :: rest => if t.lexeme = .punct c then (true, rest) else (false, t :: rest)

/-- One more level of indirection where the operand starts with `@`. -/
def modeOf (deferred : Bool) (m : Mode) : Mode := if deferred then m.deferred else m

/-- What may follow `(Rn)`. There is no deferred form without a step, so `@(Rn)` is `@0(Rn)`. -/
def afterRegister (deferred : Bool) (r : Register) (ts : List Token) : Operand × List Token :=
  match acceptPunct '+' ts with
  | (true, rest) => (.inMode (modeOf deferred .autoIncrement) r, rest)
  | (false, rest) =>
    if deferred then (.withWord .indexDeferred r (.int 0), rest)
    else (.inMode .registerDeferred r, rest)

/-- An expression, indexed by a register if one in parentheses follows. -/
def indexed (decimal deferred : Bool) (ts : List Token) :
    Except Complaint (Operand × List Token) := do
  let (v, rest) ← lazyExpression decimal ts
  match parenthesized? rest with
  | some (r, rest) => .ok (.withWord (modeOf deferred .index) r v, rest)
  | none => .ok (.relativeTo (modeOf deferred .index) v, rest)

/-- The register of `-(Rn)` at the front, and what follows it. -/
def autoDecrement? : List Token → Option (Register × List Token)
  | t :: rest => if t.lexeme = .punct '-' then parenthesized? rest else none
  | [] => none

/-- An operand after its `@`, if it has one. -/
def addressBody (decimal deferred : Bool) (ts : List Token) :
    Except Complaint (Operand × List Token) :=
  match acceptPunct '#' ts with
  | (true, rest) => do
    let (v, rest) ← lazyExpression decimal rest
    .ok (.withWord (modeOf deferred .autoIncrement) Register.pc v, rest)
  | (false, _) =>
    match autoDecrement? ts with
    | some (r, rest) => .ok (.inMode (modeOf deferred .autoDecrement) r, rest)
    | none =>
      match parenthesized? ts with
      | some (r, rest) => .ok (afterRegister deferred r rest)
      | none =>
        match ts with
        | t :: rest =>
          match registerOf? t.lexeme with
          | some r => .ok (.inMode (modeOf deferred .register) r, rest)
          | none => indexed decimal deferred ts
        | [] => indexed decimal deferred ts

/-- An operand in an addressing mode. -/
def address (decimal : Bool) (ts : List Token) : Except Complaint (Operand × List Token) :=
  let (deferred, rest) := acceptPunct '@' ts
  addressBody decimal deferred rest

/-- A bare register. -/
def registerOperand : List Token → Except Complaint (Operand × List Token)
  | [] => .error (.expectedRegister none)
  | t :: rest =>
    match registerOf? t.lexeme with
    | some r => .ok (⟨.register, .register, r, none, false, ""⟩, rest)
    | none => .error (.expectedRegister (some t.lexeme.value))

/-- A bare expression; a `#` in front of it changes nothing. -/
def expressionOperand (decimal : Bool) (ts : List Token) :
    Except Complaint (Operand × List Token) := do
  let (v, rest) ← lazyExpression decimal (acceptPunct '#' ts).2
  .ok (⟨.expression, .register, ⟨0⟩, some v, false, ""⟩, rest)

def operandBody (decimal : Bool) :
    OperandKind → List Token → Except Complaint (Operand × List Token)
  | .register, ts => registerOperand ts
  | .expression, ts => expressionOperand decimal ts
  | .address, ts => address decimal ts

/-- One operand, up to a comma or the end of the line. -/
def operand (decimal : Bool) (kind : OperandKind) (ts : List Token) :
    Except Complaint (Operand × List Token) := do
  let (o, rest) ← operandBody decimal kind ts
  let raw := String.join ((ts.take (ts.length - rest.length)).map (·.lexeme.spelling))
  match rest with
  | [] => .ok ({ o with raw := raw }, [])
  | t :: after =>
    if t.lexeme = .punct ',' then .ok ({ o with raw := raw }, t :: after)
    else .error (.afterOperand t.lexeme.value)

/-- The operands after the first, each behind a comma. Each takes at least one token. -/
def moreOperands (decimal : Bool) :
    Nat → List OperandKind → List Token → Except Complaint (List Operand)
  | _, _, [] => .ok []
  | 0, _, _ :: _ => .ok []
  | room + 1, kinds, ts => do
    let ts ← expectPunct ',' ts
    let (o, rest) ← operand decimal (kinds.headD .address) ts
    let os ← moreOperands decimal room kinds.tail rest
    .ok (o :: os)

/-- All operands of an instruction. -/
def operands (decimal : Bool) (kinds : List OperandKind) :
    List Token → Except Complaint (List Operand)
  | [] => .ok []
  | t :: ts => do
    let (o, rest) ← operand decimal (kinds.headD .address) (t :: ts)
    let os ← moreOperands decimal rest.length kinds.tail rest
    .ok (o :: os)

end Eleven.Source

import Eleven.Failure.Problem
import Eleven.Machine.Word
import Eleven.Source.Operand

/-! Instructions as words: the first word, then the words its operands take. -/
namespace Eleven.Assembly

open Eleven.Machine (Instruction)
open Eleven.Source (Operand)

def wordValue (w : UInt16) : Lazy := .int (Machine.unsignedWord w)

def requireAddress (i : Instruction) (pos : Position) (o : Operand) : Except Failure Unit :=
  if o.kind = .address then .ok () else .error ((Problem.invalidOperand i.name o.raw).failure pos)

def requireRegister (i : Instruction) (pos : Position) (o : Operand) : Except Failure Unit :=
  if o.kind = .register then .ok () else .error ((Problem.registerWanted i.name o.raw).failure pos)

def requireExpression (i : Instruction) (pos : Position) (o : Operand) : Except Failure Lazy :=
  match o.kind, o.value with
  | .expression, some v => .ok v
  | _, _ => .error ((Problem.expressionWanted i.name o.raw).failure pos)

/-- A constant between zero and the largest one, a multiple of what the shift drops. No value has
more than 64 bits, so longer shifts drop no more than that. -/
def immediateWord (i : Instruction) (pos : Position) (n : Int64) : Except Failure Int64 :=
  let unit := 1 <<< min i.shift 64
  if n > i.max then .error ((Problem.immediateTooBig n).failure pos)
  else if n < 0 then .error ((Problem.immediateNegative n).failure pos)
  else if n.toNatClampNeg % unit ≠ 0 then .error ((Problem.immediateOdd n).failure pos)
  else .ok (Machine.unsignedWord i.opcode ||| Int64.ofNat (n.toNatClampNeg / unit))

/-- The distance is counted in words and fits in eight signed bits. -/
def branchWord (i : Instruction) (pos : Position) (distance : Int64) : Except Failure Int64 :=
  if distance % 2 ≠ 0 then .error ((Problem.branchUnaligned distance).failure pos)
  else if distance / 2 < -128 ∨ distance / 2 > 127 then
    .error ((Problem.branchTooFar (distance / 2)).failure pos)
  else .ok (Machine.unsignedWord i.opcode ||| (distance / 2 &&& 0xFF))

/-- The distance is counted backward, in words, and fits in six bits. -/
def sobWord (i : Instruction) (register : Int64) (pos : Position) (distance : Int64) :
    Except Failure Int64 :=
  if distance % 2 ≠ 0 then .error ((Problem.sobUnaligned distance).failure pos)
  else if distance / 2 < 0 ∨ distance / 2 > 63 then
    .error ((Problem.sobTooFar (distance / 2)).failure pos)
  else .ok (Machine.unsignedWord i.opcode ||| (register <<< 6) ||| distance / 2)

/-- The first word. Distances count from the word after it. -/
def firstWord (i : Instruction) (os : List Operand) (pc : Lazy) (pos : Position) :
    Except Failure Lazy :=
  match i.kind, os with
  | .zero, [] => .ok (wordValue i.opcode)
  | .one, [o] => do
    requireAddress i pos o
    .ok (wordValue (i.opcode ||| o.field))
  | .two, [s, d] => do
    requireAddress i pos s
    requireAddress i pos d
    .ok (wordValue (i.opcode ||| (s.field <<< 6) ||| d.field))
  | .register, [r, d] => do
    requireRegister i pos r
    requireAddress i pos d
    .ok (wordValue (i.opcode ||| (r.register.number <<< 6) ||| d.field))
  | .registerSource, [s, r] => do
    requireAddress i pos s
    requireRegister i pos r
    .ok (wordValue (i.opcode ||| (r.register.number <<< 6) ||| s.field))
  | .rts, [r] => do
    requireRegister i pos r
    .ok (wordValue (i.opcode ||| r.register.number))
  | .immediate, [o] => do
    let v ← requireExpression i pos o
    .ok (v.mapInt (immediateWord i pos))
  | .branch, [o] => do
    let v ← requireExpression i pos o
    .ok ((v.sub (pc.addInt 2)).mapInt (branchWord i pos))
  | .sob, [r, o] => do
    requireRegister i pos r
    let v ← requireExpression i pos o
    .ok (((pc.addInt 2).sub v).mapInt (sobWord i (Int64.ofNat r.register.number.toNat) pos))
  | _, _ => .error ((Problem.unknownCommand i.name).failure pos)

/-- The words after the first and `count` more. A relative operand is stored as the distance from
the end of its own word. -/
def extraWords (pc : Lazy) : Nat → List Operand → List Lazy
  | _, [] => []
  | count, o :: os =>
    match o.kind, o.value with
    | .address, some v =>
      let word := if o.relative then v.sub (pc.addInt (Int64.ofNat (2 * (count + 1) + 2))) else v
      word :: extraWords pc (count + 1) os
    | _, _ => extraWords pc count os

/-- Every word of an instruction at `pc`. -/
def encode (i : Instruction) (os : List Operand) (pc : Lazy) (pos : Position) :
    Except Failure (List Lazy) :=
  if os.length ≠ i.kind.operandCount then
    .error ((Problem.operandCount i.name i.kind.operandCount os.length).failure pos)
  else do
    let first ← firstWord i os pc pos
    .ok (first :: extraWords pc 0 os)

end Eleven.Assembly

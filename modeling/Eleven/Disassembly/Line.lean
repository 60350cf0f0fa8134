import Eleven.Machine.Instruction
import Eleven.Machine.Mode
import Eleven.Machine.Word
import Eleven.Text.Radix

/-! One decoded instruction, or a word or byte that is none. -/
namespace Eleven.Disassembly

open Eleven.Machine (Instruction Mode Register)

inductive Arg where
  | register (r : Register)
  | constant (n : Int64)
  /-- A mode that takes no word. -/
  | plain (m : Mode) (r : Register)
  | immediate (x : UInt16)
  | absolute (x : UInt16)
  | indexed (deferred : Bool) (x : UInt16) (r : Register)
  /-- A place in memory, which a label can stand for. -/
  | place (deferred : Bool) (address : UInt16)
deriving DecidableEq, Repr, Inhabited

def wordOctal (w : UInt16) : String := Text.bareOctal (Machine.unsignedWord w)

def deferredMark (deferred : Bool) : String := if deferred then "@" else ""

/-- A register in a mode that takes no word. -/
def plainText (m : Mode) (r : Register) : String :=
  if m = Mode.register then r.name
  else if m = Mode.registerDeferred then "(" ++ r.name ++ ")"
  else if m = Mode.autoIncrement then "(" ++ r.name ++ ")+"
  else if m = Mode.autoIncrementDeferred then "@(" ++ r.name ++ ")+"
  else if m = Mode.autoDecrement then "-(" ++ r.name ++ ")"
  else if m = Mode.autoDecrementDeferred then "@-(" ++ r.name ++ ")"
  else ""

def Arg.text : Arg → String
  | .register r => r.name
  | .constant n => Text.bareOctal n
  | .plain m r => plainText m r
  | .immediate x => "#" ++ wordOctal x
  | .absolute x => "@#" ++ wordOctal x
  | .indexed deferred x r => deferredMark deferred ++ wordOctal x ++ "(" ++ r.name ++ ")"
  | .place deferred a => deferredMark deferred ++ wordOctal a

/-- The bytes still to be decoded, the address of the first of them, and the words taken so far,
last first. -/
structure Cursor where
  address : Int64
  rest : List UInt8
  taken : List UInt16
deriving Repr

def Cursor.next? (c : Cursor) : Option (UInt16 × Cursor) :=
  match c.rest with
  | low :: high :: rest =>
    let w := Machine.wordOfBytes low high
    some (w, ⟨c.address + 2, rest, w :: c.taken⟩)
  | _ => none

/-- An operand with a word of its own. The program counter already points past that word, at
`after`. -/
def extraArg (m : Mode) (r : Register) (x : UInt16) (after : Int64) : Arg :=
  if m = Mode.autoIncrement then .immediate x
  else if m = Mode.autoIncrementDeferred then .absolute x
  else if r = Register.pc then
    .place (m == Mode.indexDeferred) (Machine.wrapAddress (after + Machine.signedWord x))
  else .indexed (m == Mode.indexDeferred) x r

/-- The operand of a six-bit field. Fails if its word is missing. -/
def operandArg (field : UInt16) (c : Cursor) : Option (Arg × Cursor) :=
  let m := Machine.fieldMode field
  let r := Machine.fieldRegister field
  if m.hasExtraWord r then do
    let (x, c) ← c.next?
    some (extraArg m r x c.address, c)
  else some (.plain m r, c)

/-- The operands of an instruction whose first word is `w`; `c` stands behind that word. -/
def decodeArgs (i : Instruction) (w : UInt16) (c : Cursor) : Option (List Arg × Cursor) :=
  let high : Register := ⟨(w >>> 6) &&& 7⟩
  match i.kind with
  | .zero => some ([], c)
  | .one => do
    let (d, c) ← operandArg (w &&& 0o77) c
    some ([d], c)
  | .two => do
    let (s, c) ← operandArg ((w >>> 6) &&& 0o77) c
    let (d, c) ← operandArg (w &&& 0o77) c
    some ([s, d], c)
  | .register => do
    let (d, c) ← operandArg (w &&& 0o77) c
    some ([.register high, d], c)
  | .registerSource => do
    let (s, c) ← operandArg (w &&& 0o77) c
    some ([s, .register high], c)
  | .rts => some ([.register ⟨w &&& 7⟩], c)
  | .immediate =>
    some ([.constant (Int64.ofNat ((w &&& i.immediateField).toNat <<< i.shift))], c)
  | .branch =>
    some ([.place false (Machine.wrapAddress (c.address + 2 * w.toUInt8.toInt8.toInt64))], c)
  | .sob =>
    some ([.register high,
      .place false (Machine.wrapAddress (c.address - 2 * Machine.unsignedWord (w &&& 0o77)))], c)
  | .unassigned _ => none

inductive Content where
  | instruction (i : Instruction) (args : List Arg)
  | word (w : UInt16)
  /-- A last byte without a partner. -/
  | byte (b : UInt8)
deriving Repr

structure Line where
  address : Int64
  /-- The words that the line covers. -/
  words : List UInt16
  content : Content
deriving Repr

namespace Line

instance : Inhabited Line := ⟨⟨0, [], .word 0⟩⟩

/-- Decodes at an address. A word that starts no complete instruction is data. -/
def decode (address : Int64) (w : UInt16) (rest : List UInt8) : Line :=
  match Instruction.ofWord? w with
  | none => ⟨address, [w], .word w⟩
  | some i =>
    match decodeArgs i w ⟨address + 2, rest, [w]⟩ with
    | none => ⟨address, [w], .word w⟩
    | some (args, c) => ⟨address, c.taken.reverse, .instruction i args⟩

def isInstruction (l : Line) : Bool :=
  match l.content with
  | .instruction _ _ => true
  | _ => false

def mnemonic (l : Line) : String :=
  match l.content with
  | .instruction i _ => i.name
  | .word _ => ".WORD"
  | .byte _ => ".BYTE"

def kind (l : Line) : Machine.OperandClass :=
  match l.content with
  | .instruction i _ => i.kind
  | _ => .zero

def args (l : Line) : List Arg :=
  match l.content with
  | .instruction _ args => args
  | .word w => [.constant (Machine.unsignedWord w)]
  | .byte b => [.constant (Int64.ofNat b.toNat)]

/-- The byte of a line that is not a whole word. -/
def trailing (l : Line) : List UInt8 :=
  match l.content with
  | .byte b => [b]
  | _ => []

/-- The number of bytes that the line covers. -/
def size (l : Line) : Nat := 2 * l.words.length + l.trailing.length

/-- The first place among the operands: whether it is reached through memory, and its address. -/
def place? (l : Line) : Option (Bool × UInt16) :=
  l.args.findSome? fun
    | .place deferred a => some (deferred, a)
    | _ => none

def target? (l : Line) : Option UInt16 := l.place?.map (·.2)

def operands (l : Line) : String := ", ".intercalate (l.args.map Arg.text)

/-- The line as source. -/
def text (l : Line) : String :=
  if l.args.isEmpty then l.mnemonic else l.mnemonic ++ " " ++ l.operands

end Line

end Eleven.Disassembly

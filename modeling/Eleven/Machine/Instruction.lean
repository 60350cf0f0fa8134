import Eleven.Text.Upper

/-! The instruction set. -/
namespace Eleven.Machine

/-- How the operands of an instruction are packed into its first word. -/
inductive OperandClass where
  /-- No operand. -/
  | zero
  /-- A destination in the low six bits. -/
  | one
  /-- A source above a destination. -/
  | two
  /-- A register above a destination. -/
  | register
  /-- A source in the low six bits and a register above it, written in this order. -/
  | registerSource
  /-- A register in the low three bits. -/
  | rts
  /-- A small constant in the low bits. -/
  | immediate
  /-- A signed distance of eight bits, in words. -/
  | branch
  /-- A register and a backward distance of six bits, in words. -/
  | sob
  /-- A class number that stands for no packing. -/
  | unassigned (code : Int64)
deriving DecidableEq, Repr

namespace OperandClass

instance : Inhabited OperandClass := ⟨.zero⟩

def name : OperandClass → String
  | .zero => "zero-operand"
  | .one => "one-operand"
  | .two => "two-operand"
  | .register => "register"
  | .registerSource => "register-source"
  | .rts => "rts"
  | .immediate => "immediate"
  | .branch => "branch"
  | .sob => "sob"
  | .unassigned _ => "unknown"

def code : OperandClass → Int64
  | .zero => 0
  | .one => 1
  | .two => 2
  | .register => 3
  | .registerSource => 4
  | .rts => 5
  | .immediate => 6
  | .branch => 7
  | .sob => 8
  | .unassigned n => n

/-- The classes in the order of their numbers. -/
def assigned : List OperandClass :=
  [.zero, .one, .two, .register, .registerSource, .rts, .immediate, .branch, .sob]

def ofCode (n : Int64) : OperandClass := (assigned.find? (·.code == n)).getD (.unassigned n)

/-- The number of operands an instruction of the class is written with. -/
def operandCount : OperandClass → Nat
  | .zero => 0
  | .one => 1
  | .two => 2
  | .register => 2
  | .registerSource => 2
  | .rts => 1
  | .immediate => 1
  | .branch => 1
  | .sob => 2
  | .unassigned _ => 0

end OperandClass

structure Instruction where
  name : String
  opcode : UInt16
  kind : OperandClass
  /-- The largest immediate value as written. -/
  max : Int64
  /-- An immediate value is stored shifted right by this many bits, which must be zero. -/
  shift : Nat
deriving DecidableEq, Repr, Inhabited

namespace Instruction

/-- An instruction that takes no small constant. -/
def entry (name : String) (opcode : UInt16) (kind : OperandClass) : Instruction :=
  ⟨name, opcode, kind, 0, 0⟩

/-- An instruction that takes a small constant. The constant is written in bytes and stored in
words. -/
def immediate (name : String) (opcode : UInt16) (max : Int64) : Instruction :=
  ⟨name, opcode, .immediate, max, 1⟩

/-- Every instruction, in the order of names. -/
def table : List Instruction := [
  entry "ADC" 0o005500 .one, entry "ADCB" 0o105500 .one, entry "ADD" 0o060000 .two,
  entry "ASH" 0o072000 .registerSource, entry "ASHC" 0o073000 .registerSource,
  entry "ASL" 0o006300 .one, entry "ASLB" 0o106300 .one, entry "ASR" 0o006200 .one,
  entry "ASRB" 0o106200 .one, entry "BCC" 0o103000 .branch, entry "BCS" 0o103400 .branch,
  entry "BEQ" 0o001400 .branch, entry "BGE" 0o002000 .branch, entry "BGT" 0o003000 .branch,
  entry "BHI" 0o101000 .branch, entry "BHIS" 0o103000 .branch, entry "BIC" 0o040000 .two,
  entry "BICB" 0o140000 .two, entry "BIS" 0o050000 .two, entry "BISB" 0o150000 .two,
  entry "BIT" 0o030000 .two, entry "BITB" 0o130000 .two, entry "BLE" 0o003400 .branch,
  entry "BLO" 0o103400 .branch, entry "BLOS" 0o101400 .branch, entry "BLT" 0o002400 .branch,
  entry "BMI" 0o100400 .branch, entry "BNE" 0o001000 .branch, entry "BPL" 0o100000 .branch,
  entry "BPT" 0o000003 .zero, entry "BR" 0o000400 .branch, entry "BVC" 0o102000 .branch,
  entry "BVS" 0o102400 .branch, entry "CCC" 0o000257 .zero, entry "CLC" 0o000241 .zero,
  entry "CLN" 0o000250 .zero, entry "CLR" 0o005000 .one, entry "CLRB" 0o105000 .one,
  entry "CLV" 0o000242 .zero, entry "CLZ" 0o000244 .zero, entry "CMP" 0o020000 .two,
  entry "CMPB" 0o120000 .two, entry "COM" 0o005100 .one, entry "COMB" 0o105100 .one,
  entry "DEC" 0o005300 .one, entry "DECB" 0o105300 .one, entry "DIV" 0o071000 .registerSource,
  immediate "EMT" 0o104000 0o377, entry "HALT" 0o000000 .zero, entry "INC" 0o005200 .one,
  entry "INCB" 0o105200 .one, entry "IOT" 0o000004 .zero, entry "JMP" 0o000100 .one,
  entry "JSR" 0o004000 .register, immediate "MARK" 0o006400 0o77, entry "MFPD" 0o106500 .one,
  entry "MFPI" 0o006500 .one, entry "MFPS" 0o106700 .one, entry "MFPT" 0o000007 .zero,
  entry "MOV" 0o010000 .two, entry "MOVB" 0o110000 .two, entry "MTPD" 0o106600 .one,
  entry "MTPI" 0o006600 .one, entry "MTPS" 0o106400 .one, entry "MUL" 0o070000 .registerSource,
  entry "NEG" 0o005400 .one, entry "NEGB" 0o105400 .one, entry "NOP" 0o000240 .zero,
  entry "RESET" 0o000005 .zero, entry "ROL" 0o006100 .one, entry "ROLB" 0o106100 .one,
  entry "ROR" 0o006000 .one, entry "RORB" 0o106000 .one, entry "RTI" 0o000002 .zero,
  entry "RTS" 0o000200 .rts, entry "RTT" 0o000006 .zero, entry "SBC" 0o005600 .one,
  entry "SBCB" 0o105600 .one, entry "SCC" 0o000277 .zero, entry "SEC" 0o000261 .zero,
  entry "SEN" 0o000270 .zero, entry "SEV" 0o000262 .zero, entry "SEZ" 0o000264 .zero,
  entry "SOB" 0o077000 .sob, immediate "SPL" 0o000230 0o7, entry "SUB" 0o160000 .two,
  entry "SWAB" 0o000300 .one, entry "SXT" 0o006700 .one, immediate "TRAP" 0o104400 0o377,
  entry "TST" 0o005700 .one, entry "TSTB" 0o105700 .one, entry "WAIT" 0o000001 .zero,
  entry "XOR" 0o074000 .register]

/-- The instruction of a name, in either case. -/
def ofName? (s : String) : Option Instruction :=
  let name := Text.upper s
  table.find? (·.name == name)

/-- The bits of the first word that hold an immediate value. -/
def immediateField (i : Instruction) : UInt16 := UInt16.ofNat (i.max.toInt.toNat >>> i.shift)

/-- The bits of the first word that operands leave alone. -/
def mask (i : Instruction) : UInt16 :=
  match i.kind with
  | .one => 0o177700
  | .two => 0o170000
  | .register => 0o177000
  | .registerSource => 0o177000
  | .sob => 0o177000
  | .rts => 0o177770
  | .branch => 0o177400
  | .immediate => ~~~i.immediateField
  | .zero => 0o177777
  | .unassigned _ => 0o177777

/-- How many bits of the first word are fixed. -/
def fixedBits (i : Instruction) : Nat :=
  ((List.range 16).filter fun k => i.mask.toNat.testBit k).length

/-- The table with the most specific instructions first; those that fix the same number of bits stay
in the order of names. -/
def bySpecificity : List Instruction :=
  (List.range 17).reverse.flatMap fun bits => table.filter (·.fixedBits == bits)

/-- The most specific instruction whose fixed bits are those of the word. -/
def ofWord? (w : UInt16) : Option Instruction :=
  bySpecificity.find? fun i => w &&& i.mask == i.opcode

end Instruction

end Eleven.Machine

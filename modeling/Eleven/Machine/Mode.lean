import Eleven.Machine.Register

/-! Addressing modes and the six-bit operand field they share with a register. -/
namespace Eleven.Machine

/-- An addressing mode number. The machine has the numbers 0 to 7; an odd one goes through memory
once more than the even one before it. -/
structure Mode where
  number : UInt16
deriving DecidableEq, Repr, Inhabited

namespace Mode

/-- The register itself: `Rn`. -/
def register : Mode := ⟨0⟩

/-- Memory at the register: `(Rn)`. -/
def registerDeferred : Mode := ⟨1⟩

/-- Memory at the register, which then steps up: `(Rn)+`. -/
def autoIncrement : Mode := ⟨2⟩

/-- Memory at the address found by stepping up: `@(Rn)+`. -/
def autoIncrementDeferred : Mode := ⟨3⟩

/-- Memory at the register after it has stepped down: `-(Rn)`. -/
def autoDecrement : Mode := ⟨4⟩

/-- Memory at the address found by stepping down: `@-(Rn)`. -/
def autoDecrementDeferred : Mode := ⟨5⟩

/-- Memory at a distance from the register: `n(Rn)`. -/
def index : Mode := ⟨6⟩

/-- Memory at the address found at that distance: `@n(Rn)`. -/
def indexDeferred : Mode := ⟨7⟩

/-- The mode one level of indirection further. -/
def deferred (m : Mode) : Mode := ⟨m.number + 1⟩

/-- Indexing reads a word after the instruction; so does stepping the program counter, which makes
immediate and absolute operands. -/
def hasExtraWord (m : Mode) (r : Register) : Bool :=
  if m = index || m = indexDeferred then true
  else if m = autoIncrement || m = autoIncrementDeferred then r == Register.pc
  else false

end Mode

/-- Mode and register as the low six bits of a word. -/
def operandField (m : Mode) (r : Register) : UInt16 :=
  ((m.number &&& 7) <<< 3) ||| (r.number &&& 7)

def fieldMode (field : UInt16) : Mode := ⟨(field >>> 3) &&& 7⟩

def fieldRegister (field : UInt16) : Register := ⟨field &&& 7⟩

end Eleven.Machine

import Eleven.Text.Upper

/-! The general registers. -/
namespace Eleven.Machine

/-- A register number. The machine has the numbers 0 to 7. -/
structure Register where
  number : UInt16
deriving DecidableEq, Repr, Inhabited

namespace Register

/-- The stack pointer. -/
def sp : Register := ⟨6⟩

/-- The program counter. -/
def pc : Register := ⟨7⟩

def name (r : Register) : String :=
  if r = sp then "SP"
  else if r = pc then "PC"
  else "R" ++ String.ofList (Nat.toDigits 10 r.number.toNat)

/-- Names are `R0` to `R7`, `SP` and `PC`, in either case. -/
def ofName? (s : String) : Option Register :=
  match Text.upper s with
  | "R0" => some ⟨0⟩
  | "R1" => some ⟨1⟩
  | "R2" => some ⟨2⟩
  | "R3" => some ⟨3⟩
  | "R4" => some ⟨4⟩
  | "R5" => some ⟨5⟩
  | "R6" => some sp
  | "SP" => some sp
  | "R7" => some pc
  | "PC" => some pc
  | _ => none

end Register

end Eleven.Machine

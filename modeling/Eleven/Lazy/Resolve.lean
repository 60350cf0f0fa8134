import Eleven.Lazy.Arithmetic

/-! Evaluating lazy values: left to right, and only the chosen branch of a selection. -/
namespace Eleven

namespace BinaryOp

/-- Integers wrap at 64 bits and division goes toward zero. A remainder of a positive divisor is
made non-negative. -/
def apply : BinaryOp → Int64 → Int64 → Except Failure Datum
  | .add, x, y => .ok (.int (x + y))
  | .sub, x, y => .ok (.int (x - y))
  | .mul, x, y => .ok (.int (x * y))
  | .div, x, y => if y = 0 then .error (.fault .divisionByZero) else .ok (.int (x / y))
  | .mod, x, y =>
    if y = 0 then .error (.fault .divisionByZero)
    else if x % y < 0 ∧ 0 < y then .ok (.int (x % y + y))
    else .ok (.int (x % y))
  | .equal, x, y => .ok (.bool (x == y))

end BinaryOp

/-- The longest list that repetition makes: one address space. -/
def maxRepeat : Nat := 0o200000

/-- One element is repeated as a list of one. -/
def Datum.pattern : Datum → Except Failure (List Int64)
  | .int n => .ok [n]
  | .list xs => .ok xs
  | d => .error (.fault (.mismatch .list d))

/-- The bound is tested by division, so that no product can overflow. -/
def repeatPattern (count : Int64) (pattern : List Int64) : Except Failure Datum :=
  let n := count.toNatClampNeg
  if n > maxRepeat || (pattern.length > 0 && n > maxRepeat / pattern.length) then
    .error (.fault (.countTooLarge count pattern.length))
  else .ok (.list (List.replicate n pattern).flatten)

namespace Lazy

variable {σ : Type}

/-- The datum a value comes to when `look` gives the symbols. -/
def eval (look : String → Attempt σ Datum) : Lazy → Attempt σ Datum
  | .blank => throw (.fault .emptyValue)
  | .literal d => pure d
  | .symbol name => look name
  | .offset base k => do
    let d ← eval look base
    let n ← d.expectInt
    pure (.int (n + k))
  | .binary op a b => do
    let dx ← eval look a
    let x ← dx.expectInt
    let dy ← eval look b
    let y ← dy.expectInt
    op.apply x y
  | .repeated count elem => do
    let dn ← eval look count
    let n ← dn.expectInt
    if n < 0 then throw (.fault (.negativeCount n))
    let d ← eval look elem
    let pattern ← d.pattern
    repeatPattern n pattern
  | .select cond a b => do
    let dc ← eval look cond
    let c ← dc.expectBool
    if c then
      let d ← eval look a
      d.expect a.kind
    else
      let d ← eval look b
      d.expect b.kind
  | .step v f _ => do
    let d ← eval look v
    f d

def resolve (look : String → Attempt σ Datum) (v : Lazy) (expected : Kind) : Attempt σ Datum := do
  let d ← v.eval look
  d.expect expected

def resolveInt (look : String → Attempt σ Datum) (v : Lazy) : Attempt σ Int64 := do
  let d ← v.eval look
  d.expectInt

def resolveList (look : String → Attempt σ Datum) (v : Lazy) : Attempt σ (List Int64) := do
  let d ← v.eval look
  d.expectList

def resolveBool (look : String → Attempt σ Datum) (v : Lazy) : Attempt σ Bool := do
  let d ← v.eval look
  d.expectBool

/-- Where no symbol is known. -/
def lookNowhere (name : String) : Attempt σ Datum := throw (.fault (.undefinedSymbol name))

end Lazy

end Eleven

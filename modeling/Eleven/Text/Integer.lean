/-! Reading signed integers in a radix, within a number of bits. -/
namespace Eleven.Text

inductive IntegerFault where
  | badForm
  | outOfRange
deriving DecidableEq, Repr

/-- The value of a digit in a radix up to thirty-six; letters in lower case. -/
def digitValue? (c : Char) : Option Nat :=
  if '0' ≤ c ∧ c ≤ '9' then some (c.toNat - '0'.toNat)
  else if 'a' ≤ c ∧ c ≤ 'z' then some (c.toNat - 'a'.toNat + 10)
  else none

/-- Appends digits to a number. Whichever comes first decides, a bad digit or a number past the
limit. -/
def digitsFrom (radix limit : Nat) : Nat → List Char → Except IntegerFault Nat
  | acc, [] => .ok acc
  | acc, c :: rest =>
    match digitValue? c with
    | none => .error .badForm
    | some d =>
      if radix ≤ d then .error .badForm
      else if limit < acc * radix + d then .error .outOfRange
      else digitsFrom radix limit (acc * radix + d) rest

/-- The value of one digit or more, below `2 ^ bits`. -/
def magnitude (radix bits : Nat) (cs : List Char) : Except IntegerFault Nat :=
  if cs = [] then .error .badForm else digitsFrom radix ((1 <<< bits) - 1) 0 cs

/-- A magnitude behind an optional sign, within a two's complement number of `bits` bits. -/
def readInteger (radix bits : Nat) : List Char → Except IntegerFault Int
  | '-' :: cs => do
    let n ← magnitude radix bits cs
    if n ≤ 1 <<< (bits - 1) then .ok (-(n : Int)) else .error .outOfRange
  | '+' :: cs => do
    let n ← magnitude radix bits cs
    if n < 1 <<< (bits - 1) then .ok (n : Int) else .error .outOfRange
  | cs => do
    let n ← magnitude radix bits cs
    if n < 1 <<< (bits - 1) then .ok (n : Int) else .error .outOfRange

end Eleven.Text

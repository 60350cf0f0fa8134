import Eleven.Lazy.Arithmetic
import Eleven.Machine.Register
import Eleven.Source.Complaint
import Eleven.Source.Numeral

/-! Expressions: sums of products of signed factors. -/
namespace Eleven.Source

inductive Expr where
  | number (n : Int64)
  | name (s : String)
  | neg (e : Expr)
  | add (a b : Expr)
  | sub (a b : Expr)
  | mul (a b : Expr)
  | div (a b : Expr)
deriving DecidableEq, Repr, Inhabited

namespace Expr

/-- The lazy value an expression stands for. -/
def toLazy : Expr → Lazy
  | .number n => .int n
  | .name s => .symbol s
  | .neg e => e.toLazy.neg
  | .add a b => a.toLazy.add b.toLazy
  | .sub a b => a.toLazy.sub b.toLazy
  | .mul a b => a.toLazy.mul b.toLazy
  | .div a b => a.toLazy.div b.toLazy

end Expr

/-- Whether a name is that of a directive. -/
def isDotted (name : String) : Bool := name.toList.head? == some '.'

/-- Takes a mark that must stand here. -/
def expectPunct (c : Char) : List Token → Except Complaint (List Token)
  | [] => .error (.expectedPunct c none)
  | t :: rest =>
    if t.lexeme = .punct c then .ok rest else .error (.expectedPunct c (some t.lexeme.value))

/-- A name, a number or a text of one character. -/
def atom (decimal : Bool) : Lexeme → Except Complaint Expr
  | .number digits =>
    match numeral? decimal digits with
    | some n => .ok (.number n)
    | none => .error (.invalidNumber digits)
  | .ident name =>
    if (Machine.Register.ofName? name).isSome then .error (.registerInExpression (Text.upper name))
    else if isDotted name then .error (.directiveInExpression name)
    else .ok (.name (Text.upper name))
  | .text s =>
    match s.toList with
    | [c] => .ok (.number (Int64.ofNat c.toNat))
    | _ => .error (.textInExpression s)
  | .punct c => .error (.notAnExpression (String.singleton c))

mutual

/-- A product, then further products behind plus and minus signs. -/
def sum (decimal : Bool) : Nat → List Token → Except Complaint (Expr × List Token)
  | 0, _ => .error .expectedExpression
  | room + 1, ts => do
    let (e, rest) ← product decimal room ts
    sumTail decimal room e rest

def sumTail (decimal : Bool) : Nat → Expr → List Token → Except Complaint (Expr × List Token)
  | 0, _, _ => .error .expectedExpression
  | _ + 1, e, [] => .ok (e, [])
  | room + 1, e, t :: ts =>
    if t.lexeme = .punct '+' then do
      let (f, rest) ← product decimal room ts
      sumTail decimal room (.add e f) rest
    else if t.lexeme = .punct '-' then do
      let (f, rest) ← product decimal room ts
      sumTail decimal room (.sub e f) rest
    else .ok (e, t :: ts)

/-- A factor, then further factors behind signs of multiplication and division. -/
def product (decimal : Bool) : Nat → List Token → Except Complaint (Expr × List Token)
  | 0, _ => .error .expectedExpression
  | room + 1, ts => do
    let (e, rest) ← factor decimal room ts
    productTail decimal room e rest

def productTail (decimal : Bool) : Nat → Expr → List Token → Except Complaint (Expr × List Token)
  | 0, _, _ => .error .expectedExpression
  | _ + 1, e, [] => .ok (e, [])
  | room + 1, e, t :: ts =>
    if t.lexeme = .punct '*' then do
      let (f, rest) ← factor decimal room ts
      productTail decimal room (.mul e f) rest
    else if t.lexeme = .punct '/' then do
      let (f, rest) ← factor decimal room ts
      productTail decimal room (.div e f) rest
    else .ok (e, t :: ts)

/-- Any number of signs before an atom or an expression in parentheses. -/
def factor (decimal : Bool) : Nat → List Token → Except Complaint (Expr × List Token)
  | 0, _ => .error .expectedExpression
  | _ + 1, [] => .error .expectedExpression
  | room + 1, t :: ts =>
    if t.lexeme = .punct '-' then do
      let (e, rest) ← factor decimal room ts
      .ok (.neg e, rest)
    else if t.lexeme = .punct '+' then factor decimal room ts
    else if t.lexeme = .punct '(' then do
      let (e, rest) ← sum decimal room ts
      let rest ← expectPunct ')' rest
      .ok (e, rest)
    else do
      let e ← atom decimal t.lexeme
      .ok (e, ts)

end

/-- The longest expression at the front of a list of tokens. Between two levels of nesting a token
is taken, so the room is never used up. -/
def expression (decimal : Bool) (ts : List Token) : Except Complaint (Expr × List Token) :=
  sum decimal (4 * ts.length + 4) ts

/-- The lazy value of the expression at the front. -/
def lazyExpression (decimal : Bool) (ts : List Token) : Except Complaint (Lazy × List Token) := do
  let (e, rest) ← expression decimal ts
  .ok (e.toLazy, rest)

end Eleven.Source

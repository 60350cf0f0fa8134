import Eleven.Lazy.Basic

/-! Building lazy values. Operations on known integers are carried out at once. -/
namespace Eleven

namespace Datum

def expectInt : Datum → Except Failure Int64
  | .int n => .ok n
  | d => .error (.fault (.mismatch .int d))

def expectList : Datum → Except Failure (List Int64)
  | .list xs => .ok xs
  | d => .error (.fault (.mismatch .list d))

def expectBool : Datum → Except Failure Bool
  | .bool b => .ok b
  | d => .error (.fault (.mismatch .bool d))

def expect (k : Kind) (d : Datum) : Except Failure Datum :=
  if d.hasKind k then .ok d else .error (.fault (.mismatch k d))

end Datum

namespace Lazy

/-- Adds a known integer. Adding zero to an integer value leaves it as it is, and an offset takes up
what is added to it, so offsets never pile up. -/
def addConst (v : Lazy) (k : Int64) : Lazy :=
  if k = 0 ∧ v.kind = .int then v
  else match v with
    | .offset base j => .offset base (j + k)
    | v => .offset v k

def add (a b : Lazy) : Lazy :=
  match a.intConstant?, b.intConstant? with
  | some x, some y => int (x + y)
  | none, some y => a.addConst y
  | some x, none => b.addConst x
  | none, none => .binary .add a b

def addInt (v : Lazy) (k : Int64) : Lazy := v.add (int k)

def sub (a b : Lazy) : Lazy :=
  match b.intConstant? with
  | some y => a.add (int (-y))
  | none => .binary .sub a b

def mul (a b : Lazy) : Lazy :=
  match a.intConstant?, b.intConstant? with
  | some x, some y => int (x * y)
  | _, _ => .binary .mul a b

/-- Never carried out early: a zero divisor fails where the value is used. -/
def div (a b : Lazy) : Lazy := .binary .div a b

def mod (a b : Lazy) : Lazy := .binary .mod a b

def equal (a b : Lazy) : Lazy := .binary .equal a b

/-- Applies a function to the integer a value comes to. -/
def mapInt (v : Lazy) (f : Int64 → Except Failure Int64) : Lazy :=
  .step v (fun d => d.expectInt >>= fun n => f n >>= fun m => .ok (.int m)) .int

def neg (v : Lazy) : Lazy :=
  match v.intConstant? with
  | some x => int (-x)
  | none => v.mapInt fun x => .ok (-x)

/-- The number of elements of a list. -/
def length (v : Lazy) : Lazy :=
  match v with
  | .literal (.list xs) => int (Int64.ofNat xs.length)
  | v => .step v (fun d => d.expectList >>= fun xs => .ok (.int (Int64.ofNat xs.length))) .int

end Lazy

end Eleven

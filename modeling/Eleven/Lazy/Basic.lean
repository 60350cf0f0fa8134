import Eleven.Failure.Attempt

/-! Values whose computation waits until the symbols they mention are known. -/
namespace Eleven

inductive BinaryOp where
  | add
  | sub
  | mul
  | div
  | mod
  | equal
deriving DecidableEq, Repr

/-- A value may be known, or be an expression over symbols. `step` holds a function that is
applied to the result of a value, with the kind it promises. -/
inductive Lazy where
  /-- No value: it has no source to evaluate. -/
  | blank
  | literal (d : Datum)
  | symbol (name : String)
  | offset (base : Lazy) (k : Int64)
  | binary (op : BinaryOp) (a b : Lazy)
  | repeated (count elem : Lazy)
  | select (cond a b : Lazy)
  | step (v : Lazy) (f : Datum → Except Failure Datum) (kind : Kind)

namespace Lazy

instance : Inhabited Lazy := ⟨.blank⟩

abbrev int (n : Int64) : Lazy := .literal (.int n)

abbrev list (xs : List Int64) : Lazy := .literal (.list xs)

/-- The kind a value promises to come to. -/
def kind : Lazy → Kind
  | .blank => .any
  | .literal d => d.kind
  | .symbol _ => .int
  | .offset _ _ => .int
  | .binary .equal _ _ => .bool
  | .binary _ _ _ => .int
  | .repeated _ _ => .list
  | .select _ a b =>
    let k := a.kind
    if b.kind = k then k else .any
  | .step _ _ k => k

/-- The datum of a value that is already known. -/
def constant? : Lazy → Option Datum
  | .literal d => some d
  | _ => none

def intConstant? : Lazy → Option Int64
  | .literal (.int n) => some n
  | _ => none

end Lazy

end Eleven

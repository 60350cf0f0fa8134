/-! What an expression can come to, and the kinds by which results are checked. -/
namespace Eleven

inductive Datum where
  | int (n : Int64)
  | list (elements : List Int64)
  | text (s : String)
  | bool (b : Bool)
  /-- No value at all. -/
  | absent
deriving DecidableEq, Repr, Inhabited

inductive Kind where
  /-- Accepts every datum. -/
  | any
  | int
  | list
  | text
  | bool
  /-- A kind number without a meaning. It accepts nothing. -/
  | unassigned (code : Int64)
deriving DecidableEq, Repr, Inhabited

namespace Kind

def code : Kind → Int64
  | .any => 0
  | .int => 1
  | .list => 2
  | .text => 3
  | .bool => 4
  | .unassigned n => n

/-- The kinds in the order of their numbers. -/
def assigned : List Kind := [.any, .int, .list, .text, .bool]

def ofCode (n : Int64) : Kind := (assigned.find? (·.code == n)).getD (.unassigned n)

end Kind

namespace Datum

def kind : Datum → Kind
  | .int _ => .int
  | .list _ => .list
  | .text _ => .text
  | .bool _ => .bool
  | .absent => .any

/-- The name of a datum's type in messages. -/
def typeName : Datum → String
  | .int _ => "int"
  | .list _ => "[]int"
  | .text _ => "string"
  | .bool _ => "bool"
  | .absent => "<nil>"

def hasKind (d : Datum) : Kind → Bool
  | .any => true
  | .int => d.kind == .int
  | .list => d.kind == .list
  | .text => d.kind == .text
  | .bool => d.kind == .bool
  | .unassigned _ => false

end Datum

end Eleven

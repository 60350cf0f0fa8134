import Eleven.Text.Integer

/-! Numbers as they are written in source. -/
namespace Eleven.Source

/-- The radix that the spelling of a number calls for, and the digits that are left. A dot at the
end beats a mark at the front. -/
def radixOf (decimal : Bool) (cs : List Char) : Nat × List Char :=
  if cs.getLast? = some '.' then (10, cs.dropLast)
  else match cs with
    | '0' :: 'x' :: rest => (16, rest)
    | '0' :: 'o' :: rest => (8, rest)
    | '0' :: 'b' :: rest => (2, rest)
    | cs => (if decimal then 10 else 8, cs)

/-- Plain digits are octal, or decimal where that is the radix in force. Letters count in either
case. -/
def numeral? (decimal : Bool) (text : String) : Option Int64 :=
  let r := radixOf decimal (text.toList.map Char.toLower)
  match Text.readInteger r.1 64 r.2 with
  | .ok n => some (Int64.ofInt n)
  | .error _ => none

end Eleven.Source

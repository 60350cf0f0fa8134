import Eleven.Datum
import Eleven.Failure.Category
import Eleven.Text.Radix

/-! Why an evaluation has no result. -/
namespace Eleven

inductive Fault where
  | emptyValue
  | undefinedSymbol (name : String)
  | circularReference (name : String)
  | divisionByZero
  | negativeCount (count : Int64)
  | countTooLarge (count : Int64) (width : Nat)
  | mismatch (expected : Kind) (got : Datum)
  | notBytes (got : Datum)
  /-- A store that the address check has let through, past the end of a memory of this size. -/
  | storeOutside (address : Int64) (size : Nat)
deriving DecidableEq, Repr

/-- The name of a kind in messages. -/
def Kind.name : Kind → String
  | .any => "any"
  | .int => "int"
  | .list => "list"
  | .text => "string"
  | .bool => "bool"
  | .unassigned n => "kind(" ++ Text.decimal n ++ ")"

namespace Fault

def category : Fault → Option Category
  | .emptyValue => some .typeMismatch
  | .undefinedSymbol _ => some .undefinedSymbol
  | .circularReference _ => some .circularReference
  | .divisionByZero => some .divisionByZero
  | .negativeCount _ => some .negativeCount
  | .countTooLarge _ _ => some .countTooLarge
  | .mismatch _ _ => some .typeMismatch
  | .notBytes _ => some .typeMismatch
  | .storeOutside _ _ => none

def message : Fault → String
  | .emptyValue => "type mismatch: empty value"
  | .undefinedSymbol name => "undefined symbol: " ++ name
  | .circularReference name => "circular reference: " ++ name
  | .divisionByZero => "division by zero"
  | .negativeCount n => "negative repeat count: " ++ Text.decimal n
  | .countTooLarge n width =>
    "repeat count too large: " ++ Text.decimal n ++ " elements of " ++ toString width
  | .mismatch expected got =>
    "type mismatch: expected " ++ expected.name ++ ", got " ++ got.typeName
  | .notBytes got => "type mismatch: expected bytes, got " ++ got.typeName
  | .storeOutside a size =>
    "store at " ++ Text.octal a ++ " outside of a memory of " ++ toString size

end Fault

end Eleven

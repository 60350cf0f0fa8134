/-! The categories by which failures are told apart. -/
namespace Eleven

inductive Category where
  | redefinition
  | undefinedSymbol
  | typeMismatch
  | outOfRange
  | misaligned
  | unknownCommand
  | unsupportedArchitecture
  | inputOutput
  | badSource
  | badOperands
  | circularReference
  | divisionByZero
  | negativeCount
  | countTooLarge
  | missingFile
deriving DecidableEq, Repr, Inhabited

namespace Category

def text : Category → String
  | .redefinition => "redefinition"
  | .undefinedSymbol => "undefined symbol"
  | .typeMismatch => "type mismatch"
  | .outOfRange => "value out of range"
  | .misaligned => "unaligned target"
  | .unknownCommand => "unknown command"
  | .unsupportedArchitecture => "unsupported architecture"
  | .inputOutput => "i/o error"
  | .badSource => "syntax error"
  | .badOperands => "invalid operands"
  | .circularReference => "circular reference"
  | .divisionByZero => "division by zero"
  | .negativeCount => "negative repeat count"
  | .countTooLarge => "repeat count too large"
  | .missingFile => "file does not exist"

/-- Every category, in the order in which reports list them. -/
def all : List Category := [
  .redefinition, .undefinedSymbol, .typeMismatch, .outOfRange, .misaligned, .unknownCommand,
  .unsupportedArchitecture, .inputOutput, .badSource, .badOperands, .circularReference,
  .divisionByZero, .negativeCount, .countTooLarge, .missingFile]

end Category

end Eleven

import Eleven.Failure.Basic
import Eleven.Text.Quoted

/-! What can be wrong with a command whose form is right. -/
namespace Eleven

inductive Problem where
  | redefinition (name : String)
  | unknownCommand (name : String)
  | unknownDirective (name : String)
  | operandCount (name : String) (wanted got : Nat)
  | invalidOperand (name raw : String)
  | registerWanted (name raw : String)
  | expressionWanted (name raw : String)
  | immediateTooBig (n : Int64)
  | immediateNegative (n : Int64)
  | immediateOdd (n : Int64)
  | branchUnaligned (distance : Int64)
  | branchTooFar (words : Int64)
  | sobUnaligned (distance : Int64)
  | sobTooFar (words : Int64)
  | byteTooBig (n : Int64)
  | byteTooSmall (n : Int64)
  | wordTooBig (n : Int64)
  | wordTooSmall (n : Int64)
  | invalidAlignment (n : Int64)
  | notInKoi8r (s : String)
  | wideCharacter (c : Char)
  | otherMachine
  | unknownDialect (name : String)
  | circularInclude (path : String)
  | includesTooDeep (limit : Nat)
  | cannotInclude (path : String) (f : FileFault)
  | cannotInsert (path : String) (f : FileFault)
  | cannotRead (path : String) (f : FileFault)
  | addressOutside (address : Int64)
  | negativeLink (address : Int64)
  /-- A count that is not known when its block is met, in the words of the cause. -/
  | repeatCount (category : Category) (cause : String)
deriving DecidableEq, Repr

namespace Problem

def category : Problem → Category
  | .redefinition _ => .redefinition
  | .unknownCommand _ => .unknownCommand
  | .unknownDirective _ => .unknownCommand
  | .operandCount _ _ _ => .badOperands
  | .invalidOperand _ _ => .badOperands
  | .registerWanted _ _ => .badOperands
  | .expressionWanted _ _ => .badOperands
  | .immediateTooBig _ => .outOfRange
  | .immediateNegative _ => .outOfRange
  | .immediateOdd _ => .outOfRange
  | .branchUnaligned _ => .misaligned
  | .branchTooFar _ => .outOfRange
  | .sobUnaligned _ => .misaligned
  | .sobTooFar _ => .outOfRange
  | .byteTooBig _ => .outOfRange
  | .byteTooSmall _ => .outOfRange
  | .wordTooBig _ => .outOfRange
  | .wordTooSmall _ => .outOfRange
  | .invalidAlignment _ => .outOfRange
  | .notInKoi8r _ => .outOfRange
  | .wideCharacter _ => .outOfRange
  | .otherMachine => .unsupportedArchitecture
  | .unknownDialect _ => .badSource
  | .circularInclude _ => .inputOutput
  | .includesTooDeep _ => .inputOutput
  | .cannotInclude _ _ => .inputOutput
  | .cannotInsert _ _ => .inputOutput
  | .cannotRead _ _ => .inputOutput
  | .addressOutside _ => .outOfRange
  | .negativeLink _ => .outOfRange
  | .repeatCount c _ => c

open Text (octal quote quoteChar)

def message : Problem → String
  | .redefinition name => "Redefinition of label " ++ name
  | .unknownCommand name => "Unknown command " ++ name
  | .unknownDirective name => "Unknown directive " ++ name
  | .operandCount name wanted got =>
    name ++ " takes " ++ toString wanted ++ " operand(s), got " ++ toString got
  | .invalidOperand name raw => name ++ ": invalid operand " ++ raw
  | .registerWanted name raw => name ++ ": expected a register, got " ++ raw
  | .expressionWanted name raw => name ++ ": expected an expression, got " ++ raw
  | .immediateTooBig n => "Too big immediate value: " ++ octal n
  | .immediateNegative n => "Negative immediate value: " ++ octal n
  | .immediateOdd n => "Odd immediate value: " ++ octal n
  | .branchUnaligned n => "Unaligned branch: " ++ octal n ++ " bytes"
  | .branchTooFar n => "Too far branch: " ++ octal n ++ " words"
  | .sobUnaligned n => "Unaligned SOB: " ++ octal n ++ " bytes"
  | .sobTooFar n => "Too far SOB: " ++ octal n ++ " words"
  | .byteTooBig n => "Byte " ++ octal n ++ " is too big"
  | .byteTooSmall n => "Byte " ++ octal n ++ " is too small"
  | .wordTooBig n => "Word " ++ octal n ++ " is too big"
  | .wordTooSmall n => "Word " ++ octal n ++ " is too small"
  | .invalidAlignment n => "Invalid alignment " ++ octal n
  | .notInKoi8r s => "Cannot encode " ++ quote s ++ " as KOI8-R"
  | .wideCharacter c => "Character " ++ quoteChar c ++ " does not fit in a byte"
  | .otherMachine => "Cannot compile 8080 programs"
  | .unknownDialect name => "Unknown syntax " ++ name
  | .circularInclude path => "Circular include of " ++ path
  | .includesTooDeep limit => "Includes nested deeper than " ++ toString limit ++ " files"
  | .cannotInclude path f => "Cannot include " ++ path ++ ": " ++ f.message
  | .cannotInsert path f => "Cannot insert " ++ path ++ ": " ++ f.message
  | .cannotRead path f => "Cannot read " ++ path ++ ": " ++ f.message
  | .addressOutside a => "Address " ++ octal a ++ " is outside the address space"
  | .negativeLink a => "Link address " ++ octal a ++ " is negative"
  | .repeatCount _ cause =>
    "Error while evaluating .REPEAT count:\n" ++
      "(notice: count must be known at the time of its usage)\n\n" ++ cause

/-- The report of a problem at a position. -/
def failure (p : Problem) (pos : Position) : Failure :=
  .report ⟨some p.category, p.message, pos⟩

/-- The report of a problem that keeps its cause. -/
def failureOf (p : Problem) (pos : Position) (cause : Failure) : Failure :=
  .reportOf ⟨some p.category, p.message, pos⟩ cause

end Problem

end Eleven

import Eleven.Failure.Basic
import Eleven.Source.Token

/-! What can be wrong with the form of a source line. -/
namespace Eleven.Source

inductive Complaint where
  | lexical (f : LexicalFault)
  | invalidNumber (text : String)
  | expectedPunct (c : Char) (found : Option String)
  | expectedExpression
  | registerInExpression (name : String)
  | directiveInExpression (name : String)
  | textInExpression (s : String)
  | notAnExpression (found : String)
  | afterOperand (found : String)
  | expectedRegister (found : Option String)
  | expectedText
  | expectedDialect
  | expectedName
  | expectedBrace
  | bodyOnSameLine
  | missingBrace
  | strayBrace
  | registerAsLabel (name : String)
  | expectedCommand (found : String)
  | trailing (found : String)
  /-- A complaint about the arguments of a directive. -/
  | inDirective (mnemonic : String) (cause : Complaint)
deriving DecidableEq, Repr

namespace Complaint

def message : Complaint → String
  | .lexical f => f.message
  | .invalidNumber text => "invalid number format: " ++ text
  | .expectedPunct c (some found) =>
    "expected " ++ Text.quote (String.singleton c) ++ ", found " ++ Text.quote found
  | .expectedPunct c none => "expected " ++ Text.quote (String.singleton c) ++ " at end of line"
  | .expectedExpression => "expected expression at end of line"
  | .registerInExpression name => "register " ++ name ++ " used in an expression"
  | .directiveInExpression name => "unexpected directive " ++ name
  | .textInExpression s => "string " ++ Text.quote s ++ " used in an expression"
  | .notAnExpression found => "unexpected " ++ Text.quote found ++ " in expression"
  | .afterOperand found => "unexpected " ++ Text.quote found ++ " after operand"
  | .expectedRegister (some found) => "expected a register, found " ++ Text.quote found
  | .expectedRegister none => "expected a register"
  | .expectedText => "expected a quoted string"
  | .expectedDialect => "expected a syntax name"
  | .expectedName => "expected a name"
  | .expectedBrace => "expected '\x7b'"
  | .bodyOnSameLine => "the .REPEAT body starts on the next line"
  | .missingBrace => "missing '\x7d'"
  | .strayBrace => "unexpected '\x7d' outside of .REPEAT"
  | .registerAsLabel name => "register " ++ name ++ " used as a label"
  | .expectedCommand found => "expected a command, found " ++ Text.quote found
  | .trailing found => "unexpected " ++ Text.quote found
  | .inDirective mnemonic cause => mnemonic ++ ": " ++ cause.message

/-- The failure of a command at a position. -/
def failure (pos : Position) (c : Complaint) : Failure := .report ⟨some .badSource, c.message, pos⟩

end Complaint

end Eleven.Source

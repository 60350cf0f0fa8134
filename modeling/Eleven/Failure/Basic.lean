import Eleven.Failure.Fault
import Eleven.Failure.FileFault

/-! Failures: causes, with the text and the places that are put around them on their way out. -/
namespace Eleven

/-- A place in a source file. A position without a file name is no place. -/
structure Position where
  file : String
  line : Int
  column : Int
  /-- The source line. -/
  text : String
deriving DecidableEq, Repr, Inhabited

namespace Position

def nowhere : Position := ⟨"", 0, 0, ""⟩

def render (p : Position) : String :=
  p.file ++ ":" ++ toString p.line ++ ":" ++ toString p.column

/-- The lines that say where a failure happened. -/
def block (p : Position) : String :=
  if p.file = "" then ""
  else "\n  at file " ++ p.file ++ " (line " ++ toString p.line ++
    ", column " ++ toString p.column ++ ")\n\n" ++ p.text

end Position

/-- A report about a command: what kind of failure, in which words, where. -/
structure Diagnostic where
  category : Option Category
  message : String
  position : Position
deriving DecidableEq, Repr, Inhabited

inductive Failure where
  /-- A category and nothing more. -/
  | bare (c : Category)
  | plain (message : String)
  | fault (f : Fault)
  | file (f : FileFault)
  /-- A label in front of another failure. -/
  | within (label : String) (cause : Failure)
  /-- Words of any form around another failure, as a step that a caller brings may raise it. -/
  | around (message : String) (cause : Failure)
  /-- Words around two failures. A report whose kind is itself a failure with causes is one without a
  category whose cause joins the two. -/
  | joined (message : String) (first second : Failure)
  | report (d : Diagnostic)
  /-- A report that keeps its cause. -/
  | reportOf (d : Diagnostic) (cause : Failure)
deriving DecidableEq, Repr

namespace Failure

instance : Inhabited Failure := ⟨.plain ""⟩

/-- A report without words of its own takes those of its cause. -/
def message : Failure → String
  | .bare c => c.text
  | .plain m => m
  | .fault f => f.message
  | .file f => f.message
  | .within label cause => label ++ ": " ++ cause.message
  | .around m _ => m
  | .joined m _ _ => m
  | .report d => d.message ++ d.position.block
  | .reportOf d cause =>
    (if d.message = "" then cause.message else d.message) ++ d.position.block

/-- Whether the failure belongs to the category, by itself or by one of its causes. -/
def is (c : Category) : Failure → Bool
  | .bare c' => c' == c
  | .plain _ => false
  | .fault f => f.category == some c
  | .file f => f.category == some c
  | .within _ cause => cause.is c
  | .around _ cause => cause.is c
  | .joined _ first second => first.is c || second.is c
  | .report d => d.category == some c
  | .reportOf d cause => d.category == some c || cause.is c

/-- The outermost report, of joined failures that of the first one that has any. -/
def diagnostic? : Failure → Option Diagnostic
  | .within _ cause => cause.diagnostic?
  | .around _ cause => cause.diagnostic?
  | .joined _ first second => first.diagnostic? <|> second.diagnostic?
  | .report d => some d
  | .reportOf d _ => some d
  | _ => none

/-- The category under which a failure is reported: that of its outermost report, else the one its
cause calls for. Counts out of bounds and division by zero are values out of range. -/
def category (e : Failure) : Category :=
  match e.diagnostic?.bind (·.category) with
  | some c => c
  | none =>
    if e.is .undefinedSymbol then .undefinedSymbol
    else if e.is .circularReference then .circularReference
    else if e.is .divisionByZero || e.is .negativeCount || e.is .countTooLarge then .outOfRange
    else .typeMismatch

/-- Gives a failure a position unless it has one. A report without a place takes this one; text
around such a report is kept in the message of a new report. -/
def annotate (pos : Position) (e : Failure) : Failure :=
  match e.diagnostic? with
  | none => .reportOf ⟨some e.category, e.message, pos⟩ e
  | some inner =>
    if inner.position.file = "" then
      match e with
      | .report d => .report { d with position := pos }
      | .reportOf d cause => .reportOf { d with position := pos } cause
      | e => .reportOf ⟨inner.category, e.message, pos⟩ e
    else e

end Failure

end Eleven

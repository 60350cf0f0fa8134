import Eleven.Text.Blank
import Eleven.Text.Digit
import Eleven.Text.LowerCase
import Eleven.Text.Quoted
import Eleven.Text.Radix
import Eleven.Text.Utf8
import Eleven.Files.Path
import Eleven.Machine.Word
import Eleven.Machine.Mode
import Eleven.Machine.Instruction
import Eleven.Lazy.Scope
import Eleven.Lazy.SymbolTable
import Eleven.Source.Reader
import Eleven.Assembly.Image
import Eleven.Disassembly.SourceText
import Eleven.Output.Encode
import Eleven.Tools.Assembler
import Eleven.Tools.Disassembler
import Eleven.Main
import Eleven.Proofs.Failure.Outcome
import Eleven.Proofs.Lazy.Value
import Eleven.Proofs.Lazy.Memo
import Eleven.Proofs.Lazy.Table
import Eleven.Proofs.Lazy.Calls
import Eleven.Proofs.Lazy.Evaluation
import Eleven.Proofs.Lazy.Arithmetic
import Eleven.Proofs.Lazy.Folding
import Eleven.Proofs.Machine.Field
import Eleven.Proofs.Machine.Table
import Eleven.Proofs.Machine.Word
import Eleven.Proofs.Source.Operand
import Eleven.Proofs.Assembly.Memory
import Eleven.Proofs.Assembly.Stores
import Eleven.Proofs.Disassembly.Operand
import Eleven.Proofs.Disassembly.Decoding
import Eleven.Proofs.Assembly.Agreement
import Eleven.Proofs.Assembly.Backend
import Eleven.Proofs.Assembly.Linking
import Eleven.Proofs.Assembly.Eager
import Eleven.Proofs.Assembly.Matching
import Eleven.Proofs.Assembly.Refinement
import Eleven.Proofs.Source.Lexing
import Eleven.Proofs.Source.Reading
import Eleven.Proofs.Source.Parsing
import Eleven.Proofs.Disassembly.Printed
import Eleven.Proofs.Disassembly.Rebuilding
import Eleven.Proofs.Disassembly.InstructionLine
import Eleven.Proofs.Disassembly.Fragment
import Eleven.Proofs.Disassembly.Pieces
import Eleven.Proofs.Disassembly.Reached
import Eleven.Proofs.Disassembly.RoundTrip
import Eleven.Proofs.Disassembly.Sweep
import Eleven.Proofs.Assembly.Calls
import Eleven.Proofs.Assembly.Layout
import Eleven.Proofs.Failure.Matched
import Eleven.Proofs.Lazy.Naming
import Eleven.Proofs.Source.Naming
import Eleven.Proofs.Source.NamingLines
import Eleven.Proofs.Assembly.Naming
import Eleven.Proofs.Assembly.Parallel
import Eleven.Proofs.Assembly.ParallelRuns
import Eleven.Proofs.Text.Hexadecimal
import Eleven.Proofs.Source.NamingText
import Eleven.Proofs.Assembly.Transparency
import Eleven.Proofs.Assembly.Reordering
import Eleven.Proofs.Failure.Raising
import Eleven.Proofs.Lazy.Raising
import Eleven.Proofs.Failure.Placed
import Eleven.Proofs.Source.Located
import Eleven.Proofs.Assembly.Located
import Eleven.Proofs.Assembly.Tracing
import Eleven.Proofs.Assembly.Stepping
import Eleven.Proofs.Assembly.IncludeChain
import Eleven.Proofs.Assembly.AddressCheck
import Eleven.Proofs.Assembly.ImageEnd
import Eleven.Proofs.Assembly.LetterCase
import Eleven.Proofs.Source.Grammar
import Eleven.Proofs.Source.Expression
import Eleven.Proofs.Source.AddressForm
import Eleven.Proofs.Disassembly.FieldRange
import Eleven.Proofs.Assembly.Unrolling
import Eleven.Proofs.Assembly.Reserving
import Eleven.Proofs.Assembly.Alignment
import Eleven.Proofs.Assembly.FailedCommand
import Eleven.Proofs.Disassembly.Reachability
import Eleven.Proofs.Disassembly.Labelling
import Eleven.Proofs.Disassembly.Coverage
import Eleven.Proofs.Disassembly.Acceptance
import Eleven.Proofs.Disassembly.DataImage
import Eleven.Proofs.Source.LineOrder
import Eleven.Proofs.Lazy.Nesting
import Eleven.Proofs.Lazy.References
import Eleven.Proofs.Failure.Annotation
import Eleven.Proofs.Source.TokenLayout
import Eleven.Proofs.Assembly.ByteLog
import Eleven.Proofs.Output.Header
import Eleven.Proofs.Lazy.Kinds
import Eleven.Proofs.Source.StatementForms
import Eleven.Proofs.Source.Radix
import Eleven.Proofs.Source.DefinedNames
import Eleven.Proofs.Assembly.SymbolNames
import Eleven.Proofs.Text.PlainDigits
import Eleven.Proofs.Lazy.OffsetChain
import Eleven.Proofs.Lazy.Repetition
import Eleven.Proofs.Text.Digits
import Eleven.Proofs.Source.NumberTokens

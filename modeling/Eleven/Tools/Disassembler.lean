import Eleven.Disassembly.SourceText
import Eleven.Output.Encode
import Eleven.Text.Utf8
import Eleven.Tools.Address
import Eleven.Tools.Options
import Eleven.Tools.Script

/-! The command that disassembles an image. -/
namespace Eleven.Tools.Disassembler

def usage : Usage := {
  tool := "dis11"
  options := [
    ⟨'b', "base", "Load address of the image (octal).", "1000", true⟩,
    ⟨'H', "header", "Read the load address from a bin header.", "false", false⟩,
    ⟨'L', "listing", "Print a listing instead of source.", "false", false⟩]
  positionals := [
    ⟨"INPUT", "Image to disassemble.", false⟩,
    ⟨"OUTPUT", "File to write; standard output if omitted.", false⟩] }

def fail (message : String) : Script := .print .err (message ++ "\n") (.exit 1)

/-- The base and the code of a file, with or without a header. -/
def image? (header : Bool) (base : Int64) (bytes : List UInt8) : Option (Int64 × List UInt8) :=
  if header then Output.readHeader? bytes else some (base, bytes)

def render (listing : Bool) (code : List UInt8) (base : Int64) : Except Failure String :=
  if listing then do
    let lines ← Disassembly.disassemble code base
    .ok (Disassembly.listing lines)
  else Disassembly.sourceText code base

def deliver (path text : String) : Script :=
  if path = "" then .print .out text (.exit 0)
  else .write path (Text.encodeUtf8 text) fun
    | .error f => fail ("Error writing output file: " ++ f.message)
    | .ok () => .print .out ("Disassembly written to " ++ path ++ "\n") (.exit 0)

/-- The file is read before the base address is looked at. -/
def runWith (a : Arguments) : Script :=
  if a.has 'h' then .print .out usage.help (.exit 0)
  else
    let input := a.positional.headD ""
    let output := a.positional.tail.headD ""
    .read input fun
      | .error f => fail ("Error reading input file: " ++ f.message)
      | .ok bytes =>
        match readAddress (a.value 'b' "1000") with
        | .error reason => fail ("Invalid base address: " ++ reason)
        | .ok base =>
          match image? (a.has 'H') base bytes with
          | none => fail "Input is too short for a bin header"
          | some (base, code) =>
            match render (a.has 'L') code base with
            | .error e => fail ("Disassembly error: " ++ e.message)
            | .ok text => deliver output text

/-- The command on its arguments. -/
def script (args : List String) : Script :=
  if args.isEmpty then .print .out usage.help (.exit 0)
  else match parseArguments usage.allOptions args with
    | .error f => .print .err ("Error: " ++ f.message ++ "\n") (.exit 1)
    | .ok a => runWith a

end Eleven.Tools.Disassembler

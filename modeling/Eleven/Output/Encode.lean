import Eleven.Failure.Basic
import Eleven.Files.Path
import Eleven.Machine.Word
import Eleven.Output.Artifact
import Eleven.Text.Quoted

/-! Images as files. -/
namespace Eleven.Output

/-- The load address and the length, one word each, low byte first. -/
def header (link : Int64) (size : Nat) : List UInt8 :=
  Machine.bytesOfWord (Machine.wrapAddress link) ++ Machine.bytesOfWord (UInt16.ofNat size)

/-- The bytes of a file in a format. Address and length must each fit in a word where they are
written. -/
def encode (format : Format) (link : Int64) (data : List UInt8) : Except Failure (List UInt8) :=
  match format with
  | .raw => .ok data
  | .bin =>
    if link < 0 ∨ link > 0xFFFF then
      .error (.plain ("load address " ++ Text.zeroOctal link ++ " does not fit in a word"))
    else if data.length > 0xFFFF then
      .error (.plain ("image of " ++ toString data.length ++ " bytes is too long for a bin header"))
    else .ok (header link data.length ++ data)
  | .unknown name => .error (.plain ("unknown output kind " ++ Text.quote name))

/-- Where an artifact is written: its target, or a default name with the format as extension,
below a directory unless the name is absolute. -/
def path (dir defaultName : String) (a : Artifact) : String :=
  let name := if a.target = "" then defaultName ++ "." ++ a.format.name else a.target
  if Path.isAbsolute name then name else Path.join dir name

/-- The load address and the image of a file with a header. Bytes past the length are dropped. -/
def readHeader? : List UInt8 → Option (Int64 × List UInt8)
  | a :: b :: c :: d :: rest =>
    some (Machine.unsignedWord (Machine.wordOfBytes a b), rest.take (Machine.wordOfBytes c d).toNat)
  | _ => none

end Eleven.Output

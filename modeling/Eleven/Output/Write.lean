import Eleven.Files.Disk
import Eleven.Output.Encode

/-! Writing artifacts. -/
namespace Eleven.Output

/-- The path and the bytes of an artifact. -/
def plan (dir defaultName : String) (a : Artifact) (link : Int64) (data : List UInt8) :
    Except Failure (String × List UInt8) := do
  let bytes ← encode a.format link data
  .ok (path dir defaultName a, bytes)

/-- The failure to write a planned file. -/
def writeFailure (path : String) (f : FileFault) : Failure :=
  .within ("writing " ++ path) (.file f)

/-- Writes an artifact to a disk. Gives the path written and the disk after it. -/
def writeTo (disk : Files.Disk) (dir defaultName : String) (a : Artifact) (link : Int64)
    (data : List UInt8) : Except Failure String × Files.Disk :=
  match plan dir defaultName a link data with
  | .error e => (.error e, disk)
  | .ok (path, bytes) =>
    match disk.write path bytes with
    | .error f => (.error (writeFailure path f), disk)
    | .ok disk => (.ok path, disk)

end Eleven.Output

import Eleven.Failure.FileFault
import Eleven.Files.Path

/-! Where sources, included and inserted files come from. -/
namespace Eleven.Files

structure FileSystem where
  read : String → Except FileFault (List UInt8)

/-- Files under slash-separated names, all below one root. -/
structure Collection where
  files : List (String × List UInt8)

namespace Collection

/-- The name under which a path is looked up: its clean spelling, and no slash in front. -/
def nameOf (path : String) : String :=
  match (Path.clean path).toList with
  | '/' :: rest => String.ofList rest
  | cs => String.ofList cs

/-- A clean name that does not lead out of the collection. -/
def isInside (name : String) : Bool :=
  name != "" && !(['.', '.', '/'].isPrefixOf name.toList || name == "..")

def isDirectory (c : Collection) (name : String) : Bool :=
  name == "." || c.files.any fun f => (name.toList ++ ['/']).isPrefixOf f.1.toList

def read (c : Collection) (path : String) : Except FileFault (List UInt8) :=
  let name := nameOf path
  if isInside name then
    match c.files.lookup name with
    | some bytes => .ok bytes
    | none => if c.isDirectory name then .error (.notAFile name) else .error (.unknownName name)
  else .error (.unknownName name)

def fileSystem (c : Collection) : FileSystem := ⟨c.read⟩

end Collection

end Eleven.Files

/-! Files that a build is asked to write. -/
namespace Eleven.Output

inductive Format where
  /-- The bare memory image. -/
  | raw
  /-- The image behind its load address and its length. -/
  | bin
  /-- A format name that stands for nothing. -/
  | unknown (name : String)
deriving DecidableEq, Repr, Inhabited

namespace Format

def name : Format → String
  | .raw => "raw"
  | .bin => "bin"
  | .unknown name => name

def ofName (name : String) : Format :=
  if name = "raw" then .raw else if name = "bin" then .bin else .unknown name

end Format

/-- A file to write. Without a target it takes a default name and the format as its extension. -/
structure Artifact where
  format : Format
  target : String
deriving DecidableEq, Repr, Inhabited

end Eleven.Output

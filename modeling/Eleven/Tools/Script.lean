import Eleven.Files.Disk

/-! What a tool does to the world, one request after the other. -/
namespace Eleven.Tools

open Eleven.Files (Disk FileSystem)

inductive Stream where
  | out
  | err
deriving DecidableEq, Repr

inductive Script where
  | exit (status : Nat)
  | read (path : String) (next : Except FileFault (List UInt8) → Script)
  /-- Asks for some sources and all files that they name. -/
  | view (sources : List String) (next : FileSystem → Script)
  | write (path : String) (bytes : List UInt8) (next : Except FileFault Unit → Script)
  | print (stream : Stream) (text : String) (next : Script)

/-- What is left after a script has run. -/
structure Outcome where
  status : Nat
  out : String
  err : String
  disk : Disk

namespace Script

/-- Runs a script in a working directory. -/
def runOn : Script → Disk → Outcome
  | .exit status, disk => ⟨status, "", "", disk⟩
  | .read path next, disk => runOn (next (disk.read path)) disk
  | .view _ next, disk => runOn (next disk.fileSystem) disk
  | .write path bytes next, disk =>
    match disk.write path bytes with
    | .ok disk' => runOn (next (.ok ())) disk'
    | .error f => runOn (next (.error f)) disk
  | .print stream text next, disk =>
    let after := runOn next disk
    match stream with
    | .out => { after with out := text ++ after.out }
    | .err => { after with err := text ++ after.err }

end Script

end Eleven.Tools

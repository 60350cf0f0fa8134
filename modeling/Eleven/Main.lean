import Eleven.Source.Reference
import Eleven.Tools.Assembler
import Eleven.Tools.Disassembler

/-! The tools as a program. The first argument names the tool. -/
namespace Eleven.Program

open Eleven.Source (Reference)
open Eleven.Tools (Script)

/-- What the system has said about the files it was asked for. -/
abbrev Known := List (String × Except FileFault (List UInt8))

def readFault (path : String) : IO.Error → FileFault
  | .noFileOrDirectory _ _ _ => .noSuchFile path
  | .inappropriateType _ _ _ => .readDirectory path
  | e => .other ("open " ++ path ++ ": " ++ toString e)

def writeFault (path : String) : IO.Error → FileFault
  | .noFileOrDirectory _ _ _ => .noSuchFile path
  | .inappropriateType _ _ _ => .openDirectory path
  | e => .other ("open " ++ path ++ ": " ++ toString e)

def readFile (path : String) : IO (Except FileFault (List UInt8)) := do
  try
    let bytes ← IO.FS.readBinFile path
    return .ok bytes.toList
  catch e => return .error (readFault path e)

def writeFile (path : String) (bytes : List UInt8) : IO (Except FileFault Unit) := do
  try
    IO.FS.writeBinFile path (ByteArray.mk bytes.toArray)
    return .ok ()
  catch e => return .error (writeFault path e)

/-- Reads files and, for sources, the files they name, each once. -/
partial def load (known : Known) : List Reference → IO Known
  | [] => return known
  | r :: rest => do
    if (known.lookup r.path).isSome then load known rest
    else
      let content ← readFile r.path
      let more := match r, content with
        | .source path, .ok bytes => Source.references path (Text.decodeUtf8 bytes)
        | _, _ => []
      load ((r.path, content) :: known) (more ++ rest)

def fileSystem (known : Known) : Files.FileSystem :=
  ⟨fun path => (known.lookup path).getD (.error (.noSuchFile path))⟩

def perform : Script → IO UInt32
  | .exit status => return UInt32.ofNat status
  | .read path next => do
    let content ← readFile path
    perform (next content)
  | .view sources next => do
    let known ← load [] (sources.map .source)
    perform (next (fileSystem known))
  | .write path bytes next => do
    let r ← writeFile path bytes
    perform (next r)
  | .print .out text next => do
    IO.print text
    perform next
  | .print .err text next => do
    IO.eprint text
    perform next

end Eleven.Program

def main : List String → IO UInt32
  | "asm11" :: args => Eleven.Program.perform (Eleven.Tools.Assembler.script args)
  | "dis11" :: args => Eleven.Program.perform (Eleven.Tools.Disassembler.script args)
  | _ => do
    IO.eprintln "usage: asm11 | dis11, then the arguments of the tool"
    return 1

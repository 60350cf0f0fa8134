import Eleven.Files.FileSystem

/-! A working directory and the files below it. -/
namespace Eleven.Files

open Eleven.Text (split)

/-- Files under clean names relative to the working directory. Directories are the names in front of
files. -/
structure Disk where
  files : List (String × List UInt8)

namespace Disk

/-- A place named by its components, innermost first. -/
abbrev Name := List (List Char)

def spell (name : Name) : String := String.ofList (Path.joinComponents name.reverse)

def file? (d : Disk) (name : Name) : Option (List UInt8) := d.files.lookup (spell name)

def isDirectory (d : Disk) (name : Name) : Bool :=
  name.isEmpty || d.files.any fun f => ((spell name).toList ++ ['/']).isPrefixOf f.1.toList

/-- Follows components from a directory. The result is missing if they lead out of the working
directory. -/
def walk (d : Disk) (path : String) : Name → List (List Char) → Except FileFault (Option Name)
  | name, [] => .ok (some name)
  | name, part :: parts =>
    if (d.file? name).isSome then .error (.notADirectory path)
    else if !d.isDirectory name then .error (.noSuchFile path)
    else if part = [] ∨ part = ['.'] then walk d path name parts
    else if part = ['.', '.'] then
      match name with
      | [] => .ok none
      | _ :: outer => walk d path outer parts
    else walk d path (part :: name) parts

/-- The place that a path names. Nothing is known about absolute paths. -/
def locate (d : Disk) (path : String) : Except FileFault (Option Name) :=
  if path = "" ∨ Path.isAbsolute path then .error (.noSuchFile path)
  else walk d path [] (split '/' path.toList)

def read (d : Disk) (path : String) : Except FileFault (List UInt8) :=
  match d.locate path with
  | .error f => .error f
  | .ok none => .error (.noSuchFile path)
  | .ok (some name) =>
    match d.file? name with
    | some bytes => .ok bytes
    | none => if d.isDirectory name then .error (.readDirectory path) else .error (.noSuchFile path)

def fileSystem (d : Disk) : FileSystem := ⟨d.read⟩

/-- The disk after a file is written. What lies outside the working directory is not shown. -/
def write (d : Disk) (path : String) (bytes : List UInt8) : Except FileFault Disk :=
  match d.locate path with
  | .error f => .error f
  | .ok none => .ok d
  | .ok (some name) =>
    if (d.file? name).isNone && d.isDirectory name then .error (.openDirectory path)
    else .ok ⟨(spell name, bytes) :: d.files.filter (·.1 != spell name)⟩

/-- The files that are new or hold something else than before. -/
def changedSince (before after : Disk) : List (String × List UInt8) :=
  after.files.filter fun f => before.files.lookup f.1 != some f.2

end Disk

end Eleven.Files

import Eleven.Assembly.Image
import Eleven.Output.Write
import Eleven.Tools.Address
import Eleven.Tools.Options
import Eleven.Tools.Script
import Eleven.Tools.SymbolMap

/-! The command that assembles files. -/
namespace Eleven.Tools.Assembler

open Eleven.Assembly (Image Session)
open Eleven.Files (FileSystem)

def usage : Usage := {
  tool := "asm11"
  options := [
    ⟨'o', "output", "Directory for output files.", "", true⟩,
    ⟨'l', "link", "Default link address (octal).", "1000", true⟩,
    ⟨'p', "project", "Assemble all files as one project.", "false", false⟩,
    ⟨'s', "symbols", "Print the symbol table.", "false", false⟩,
    ⟨'r', "raw", "Always write a raw image.", "false", false⟩]
  positionals := [⟨"FILE", "Source files to assemble.", true⟩] }

structure Config where
  dir : String
  link : Int64
  symbols : Bool
  raw : Bool

/-- A failure is reported under the file of its position, if it has one. -/
def reportLine (name : String) (e : Failure) : String :=
  let name := match e.diagnostic? with
    | some d => if d.position.file = "" then name else d.position.file
    | none => name
  name ++ ": " ++ e.message ++ "\n"

/-- Adds files in order, up to the first failure. -/
def addFiles (fs : FileSystem) : List String → Attempt Session (Except (String × Failure) Unit)
  | [] => pure (.ok ())
  | f :: rest => do
    match ← (Session.addFile fs f).observe with
    | .error e => pure (.error (f, e))
    | .ok _ => addFiles fs rest

/-- The image of some files, or the file to blame and the failure. -/
def link (c : Config) (fs : FileSystem) (name : String) (files : List String) (project : Bool) :
    Except (String × Failure) Image :=
  let start := (Session.new.setLink c.link).setProject project
  match (addFiles fs files).run start with
  | (.error e, _) => .error (name, e)
  | (.ok (.error e), _) => .error e
  | (.ok (.ok ()), s) =>
    match Session.linkImage.outcome s with
    | .ok image => .ok image
    | .error e => .error (name, e)

def writtenLine (name path : String) (image : Image) : String :=
  name ++ ": " ++ path ++ ": " ++ toString image.data.length ++ " bytes at " ++
    Text.paddedOctal 6 image.link ++ "\n"

/-- Writes artifacts in order, up to the first failure. -/
def writeAll (name dir : String) (image : Image) (next : Bool → Script) :
    List Output.Artifact → Script
  | [] => next true
  | a :: rest =>
    match Output.plan dir (Path.stem name) a image.link image.data with
    | .error e => .print .err (reportLine name e) (next false)
    | .ok (path, bytes) =>
      .write path bytes fun
        | .error f => .print .err (reportLine name (Output.writeFailure path f)) (next false)
        | .ok () => .print .err (writtenLine name path image) (writeAll name dir image next rest)

/-- A raw image is written where nothing else is asked for. -/
def artifacts (c : Config) (image : Image) : List Output.Artifact :=
  if image.build.isEmpty || c.raw then image.build ++ [⟨.raw, ""⟩] else image.build

/-- Assembles files in one session and writes what they ask for. -/
def build (c : Config) (name : String) (files : List String) (project : Bool)
    (next : Bool → Script) : Script :=
  .view files fun fs =>
    match link c fs name files project with
    | .error (blamed, e) => .print .err (reportLine blamed e) (next false)
    | .ok image =>
      let dir := if c.dir = "" then Path.directory name else c.dir
      let rest := writeAll name dir image next (artifacts c image)
      if c.symbols then
        .print .err (colourText name ++ ": " ++ colourMap image.symbols ++ "\n") rest
      else rest

def buildEach (c : Config) : Bool → List String → Script
  | success, [] => .exit (if success then 0 else 1)
  | success, f :: rest => build c f [f] false fun ok => buildEach c (success && ok) rest

def runWith (a : Arguments) : Script :=
  if a.has 'h' then .print .out usage.help (.exit 0)
  else
    let linkText := a.value 'l' "1000"
    match readAddress linkText with
    | .error reason =>
      .print .err ("Invalid link address " ++ Text.quote linkText ++ ": " ++ reason ++ "\n")
        (.exit 1)
    | .ok address =>
      let c : Config := ⟨a.value 'o' "", address, a.has 's', a.has 'r'⟩
      match a.positional with
      | [] => .print .out usage.help (.exit 1)
      | f :: rest =>
        if a.has 'p' then build c f (f :: rest) true fun ok => .exit (if ok then 0 else 1)
        else buildEach c true (f :: rest)

/-- The command on its arguments. -/
def script (args : List String) : Script :=
  if args.isEmpty then .print .out usage.help (.exit 0)
  else match parseArguments usage.allOptions args with
    | .error f => .print .err ("Error: " ++ f.message ++ "\n") (.exit 1)
    | .ok a => runWith a

end Eleven.Tools.Assembler

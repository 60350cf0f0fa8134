import Eleven.Assembly.Operation
import Eleven.Source.Reader
import Eleven.Text.Utf8

/-! Running commands over a session, through blocks and included files. -/
namespace Eleven.Assembly

open Eleven.Files (FileSystem)
open Eleven.Source (Header Command Reader)

/-- Whether the commands after this one are still to be run. -/
inductive Flow where
  | next
  | stop
deriving DecidableEq, Repr

/-- How a command includes a file of a name. -/
abbrev Includer := Header → String → Attempt Session Unit

def defineLabels (pos : Position) : List String → Attempt Session Unit
  | [] => pure ()
  | label :: labels => do
    Attempt.update fun s => s.define label s.pc pos
    defineLabels pos labels

/-- The report of a count that cannot be had. An inner report gives only its own words. -/
def repeatFailure (pos : Position) (e : Failure) : Failure :=
  let words := match e.diagnostic? with
    | some d => d.message
    | none => e.message
  (Problem.repeatCount e.category words).failureOf pos e

/-- A count must be known, and not be negative, when its block is met. -/
def repeatCount (pos : Position) (count : Lazy) : Attempt Session Nat :=
  Attempt.mapFailure (repeatFailure pos) do
    let n ← Session.onSymbols (count.resolveInt SymbolTable.lookup)
    if n < 0 then throw (.fault (.negativeCount n)) else pure n.toNatClampNeg

/-- Runs a body again and again. An end of source inside it ends one round. -/
def replay (body : Attempt Session Flow) : Nat → Attempt Session Unit
  | 0 => pure ()
  | n + 1 => do
    let _ ← body
    replay body n

mutual

/-- Labels are defined before the command itself runs. -/
def run (fs : FileSystem) (includer : Includer) : Command → Attempt Session Flow
  | .single h o => do
    defineLabels h.position h.labels
    match o with
    | .endOfSource => pure .stop
    | .includeFile name => do
      includer h name
      pure .next
    | o => do
      Attempt.update (apply fs h o)
      pure .next
  | .repetition h count body => do
    defineLabels h.position h.labels
    let n ← repeatCount h.position count
    replay (runBody fs includer body) n
    pure .next

/-- Runs commands until one stops the stream. -/
def runBody (fs : FileSystem) (includer : Includer) : List Command → Attempt Session Flow
  | [] => pure .next
  | c :: cs => do
    match ← run fs includer c with
    | .stop => pure .stop
    | .next => runBody fs includer cs

end

/-- Runs what a reader yields, up to the first failure or the end of the source. -/
def runSource (fs : FileSystem) (includer : Includer) :
    List (Except Failure Command) → Attempt Session Unit
  | [] => pure ()
  | .error e :: _ => throw e
  | .ok c :: rest => do
    match ← run fs includer c with
    | .stop => pure ()
    | .next => runSource fs includer rest

def enterFile (file : String) (s : Session) : Session := { s with files := file :: s.files }

def leaveFile (s : Session) : Session := { s with files := s.files.tail }

/-- Runs `act` with a file on the chain of files being assembled. -/
def inFile (file : String) (act : Attempt Session Unit) : Attempt Session Unit := do
  modify (enterFile file)
  act.ensuring leaveFile

/-- The number of files that may be open inside each other. -/
def maxIncludeDepth : Nat := 64

/-- Includes a file that is not being assembled already. `compile?` is missing where the chain of
files is as long as it may be. -/
def includeWith (fs : FileSystem) (compile? : Option (String → String → Attempt Session Unit)) :
    Includer := fun h name => do
  let path := Path.resolve h.position.file name
  let s ← get
  if path ∈ s.files then throw ((Problem.circularInclude path).failure h.position)
  match compile? with
  | none => throw ((Problem.includesTooDeep maxIncludeDepth).failure h.position)
  | some compile =>
    match fs.read path with
    | .error f => throw ((Problem.cannotInclude path f).failureOf h.position (.file f))
    | .ok bytes => compile path (Text.decodeUtf8 bytes)

/-- Assembles a text as the file of a name, inside which `room` further files may be open. -/
def compile (fs : FileSystem) : Nat → String → String → Attempt Session Unit
  | 0, file, text =>
    inFile (Path.clean file) (runSource fs (includeWith fs none) (Reader.commands file text))
  | room + 1, file, text =>
    inFile (Path.clean file)
      (runSource fs (includeWith fs (some (compile fs room))) (Reader.commands file text))

namespace Session

/-- Assembles a text as if it were read from a file. -/
def addSource (fs : FileSystem) (name text : String) : Attempt Session Unit := do
  let s ← get
  compile fs (maxIncludeDepth - 1 - s.files.length) name text

def addFile (fs : FileSystem) (path : String) : Attempt Session Unit :=
  match fs.read path with
  | .error f => throw ((Problem.cannotRead path f).failureOf .nowhere (.file f))
  | .ok bytes => addSource fs path (Text.decodeUtf8 bytes)

end Session

end Eleven.Assembly

import Eleven.Lazy.SymbolTable
import Eleven.Output.Artifact

/-! The state of an assembly: symbols, stores that wait for the linker, and the location counter. -/
namespace Eleven.Assembly

/-- A store that waits for its address and its bytes. -/
structure Write where
  address : Lazy
  /-- One byte or a list of bytes. -/
  data : Lazy
  position : Position

/-- The load address of a program that sets none. -/
def defaultLink : Int64 := 0o1000

structure Session where
  symbols : SymbolTable
  /-- The stores asked for so far, latest first. -/
  pending : List Write
  build : List Output.Artifact
  /-- The location counter. -/
  pc : Lazy
  link : Lazy
  /-- In a project of several files a link directive moves the location counter alone. -/
  project : Bool
  /-- Texts are stored in KOI8-R. -/
  koi8r : Bool
  /-- The files being assembled, innermost first. -/
  files : List String

namespace Session

def new : Session :=
  ⟨.empty, [], [], .int defaultLink, .int defaultLink, false, false, []⟩

/-- The stores in the order in which they were asked for. -/
def writes (s : Session) : List Write := s.pending.reverse

/-- Sets the link address and the location counter. -/
def setLink (address : Int64) (s : Session) : Session :=
  { s with pc := .int address, link := .int address }

def setProject (project : Bool) (s : Session) : Session := { s with project := project }

def setSymbols (t : SymbolTable) (s : Session) : Session := { s with symbols := t }

def define (name : String) (v : Lazy) (pos : Position) (s : Session) : Except Failure Session := do
  let t ← s.symbols.define name v pos
  .ok (s.setSymbols t)

/-- Runs a computation over the symbol table. -/
def onSymbols {α : Type} (act : Attempt SymbolTable α) : Attempt Session α :=
  act.onPart (·.symbols) setSymbols

/-- A byte from -256 to 255; negative ones are stored in two's complement. -/
def storedByte (pos : Position) (n : Int64) : Except Failure Int64 :=
  if n ≥ 256 then .error ((Problem.byteTooBig n).failure pos)
  else if n < -256 then .error ((Problem.byteTooSmall n).failure pos)
  else if n < 0 then .ok (n + 256)
  else .ok n

/-- A word from -65536 to 65535; negative ones are stored in two's complement. -/
def storedWord (pos : Position) (n : Int64) : Except Failure Int64 :=
  if n ≥ 65536 then .error ((Problem.wordTooBig n).failure pos)
  else if n < -65536 then .error ((Problem.wordTooSmall n).failure pos)
  else if n < 0 then .ok (n + 65536)
  else .ok n

def lowByte (n : Int64) : Except Failure Int64 := .ok (n &&& 0xFF)

def highByte (n : Int64) : Except Failure Int64 := .ok (n >>> 8)

def writeByte (v : Lazy) (pos : Position) (s : Session) : Session :=
  { s with
    pending := ⟨s.pc, v.mapInt (storedByte pos), pos⟩ :: s.pending
    pc := s.pc.addInt 1 }

/-- The low byte goes first. -/
def writeWord (v : Lazy) (pos : Position) (s : Session) : Session :=
  let w := v.mapInt (storedWord pos)
  { s with
    pending := ⟨s.pc.addInt 1, w.mapInt highByte, pos⟩ :: ⟨s.pc, w.mapInt lowByte, pos⟩ :: s.pending
    pc := s.pc.addInt 2 }

/-- The location counter stays lazy as long as the length of the list is not known. -/
def writeList (v : Lazy) (pos : Position) (s : Session) : Session :=
  { s with pending := ⟨s.pc, v, pos⟩ :: s.pending, pc := s.pc.add v.length }

def writeBytes (vs : List Lazy) (pos : Position) (s : Session) : Session :=
  vs.foldl (fun s v => s.writeByte v pos) s

def writeWords (vs : List Lazy) (pos : Position) (s : Session) : Session :=
  vs.foldl (fun s v => s.writeWord v pos) s

end Session

end Eleven.Assembly

import Eleven.Assembly.Encoding
import Eleven.Assembly.Session
import Eleven.Files.FileSystem
import Eleven.Source.Command
import Eleven.Text.Koi8r

/-! What each operation does to a session. A refused operation does nothing. -/
namespace Eleven.Assembly

open Eleven.Files (FileSystem)
open Eleven.Source (Header Operation)

/-- The dialects that sources may name. -/
def dialects : List String := ["pdp11asm", "pdpy11"]

def latinBytes : List Char → Except Problem (List Int64)
  | [] => .ok []
  | c :: cs =>
    if c.toNat > 0xFF then .error (.wideCharacter c)
    else do
      let bs ← latinBytes cs
      .ok (Int64.ofNat c.toNat :: bs)

def koi8rBytes? : List Char → Option (List Int64)
  | [] => some []
  | c :: cs => do
    let b ← Text.koi8rByte? c
    let bs ← koi8rBytes? cs
    some (Int64.ofNat b.toNat :: bs)

/-- The bytes of a text: its KOI8-R codes, or its code points if each of them is a byte. -/
def textBytes (koi8r : Bool) (s : String) : Except Problem (List Int64) :=
  if koi8r then
    match koi8rBytes? s.toList with
    | some bs => .ok bs
    | none => .error (.notInKoi8r s)
  else latinBytes s.toList

/-- Zeros up to the next multiple of `k`, counted from the remainder toward zero. -/
def knownPadding (pc k : Int64) : List Int64 :=
  if pc % k = 0 then [] else List.replicate (k - pc % k).toNatClampNeg 0

/-- Zeros up to the next multiple of a modulus that may not be known yet. -/
def lazyPadding (pc n : Lazy) : Lazy :=
  .select ((pc.mod n).equal (.int 0)) (.list []) (.repeated (n.sub (pc.mod n)) (.int 0))

def padding (pc n : Lazy) : Lazy :=
  match pc.intConstant?, n.intConstant? with
  | some p, some k => .list (knownPadding p k)
  | _, _ => lazyPadding pc n

def alignmentCheck (pos : Position) (n : Int64) : Except Failure Int64 :=
  if n ≤ 0 then .error ((Problem.invalidAlignment n).failure pos) else .ok n

/-- A modulus that is known and positive needs no check later. -/
def checkedModulus (v : Lazy) (pos : Position) : Lazy :=
  match v.intConstant? with
  | some c => if c > 0 then v else v.mapInt (alignmentCheck pos)
  | none => v.mapInt (alignmentCheck pos)

def writeText (s : Session) (pos : Position) (text : String) (ending : List Int64) :
    Except Failure Session :=
  match textBytes s.koi8r text with
  | .ok bs => .ok (s.writeList (.list (bs ++ ending)) pos)
  | .error p => .error (p.failure pos)

def insertFile (fs : FileSystem) (s : Session) (pos : Position) (name : String) :
    Except Failure Session :=
  let path := Path.resolve pos.file name
  match fs.read path with
  | .ok bytes => .ok (s.writeList (.list (bytes.map fun b => Int64.ofNat b.toNat)) pos)
  | .error f => .error ((Problem.cannotInsert path f).failureOf pos (.file f))

def writeInstruction (s : Session) (h : Header) (os : List Source.Operand) :
    Except Failure Session :=
  match Machine.Instruction.ofName? h.mnemonic with
  | none => .error ((Problem.unknownCommand h.mnemonic).failure h.position)
  | some i => do
    let words ← encode i os s.pc h.position
    .ok (s.writeWords words h.position)

/-- The operations that act by themselves; including a file and ending a source concern the stream
of commands and change nothing here. -/
def apply (fs : FileSystem) (h : Header) (o : Operation) (s : Session) : Except Failure Session :=
  let pos := h.position
  match o with
  | .nothing => .ok s
  | .thisMachine => .ok s
  | .decimalNumbers => .ok s
  | .endOfSource => .ok s
  | .includeFile _ => .ok s
  | .instruction os => writeInstruction s h os
  | .link v => .ok { s with pc := v, link := if s.project then s.link else v }
  | .otherMachine => .error (Problem.otherMachine.failure pos)
  | .dialect name =>
    if name ∈ dialects then .ok s else .error ((Problem.unknownDialect name).failure pos)
  | .bytes vs => .ok (s.writeBytes vs pos)
  | .words vs => .ok (s.writeWords vs pos)
  | .reserveBytes n => .ok (s.writeList (.repeated n (.int 0)) pos)
  | .reserveWords n => .ok (s.writeList (.repeated (n.mul (.int 2)) (.int 0)) pos)
  | .even => .ok (s.writeList (padding s.pc (.int 2)) pos)
  | .align v => .ok (s.writeList (padding s.pc (checkedModulus v pos)) pos)
  | .ascii text => writeText s pos text []
  | .asciz text => writeText s pos text [0]
  | .makeArtifact a => .ok { s with build := s.build ++ [a] }
  | .koi8r => .ok { s with koi8r := true }
  | .insertFile name => insertFile fs s pos name
  | .equate name v => s.define name v pos

end Eleven.Assembly

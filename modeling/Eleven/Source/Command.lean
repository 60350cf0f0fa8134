import Eleven.Output.Artifact
import Eleven.Source.Operand

/-! Commands: what one statement asks for. -/
namespace Eleven.Source

/-- What stands around an operation: the labels before it, its name in upper case, its place. -/
structure Header where
  labels : List String
  mnemonic : String
  position : Position
deriving DecidableEq, Repr, Inhabited

inductive Operation where
  /-- Labels alone. -/
  | nothing
  | instruction (operands : List Operand)
  | link (address : Lazy)
  | includeFile (name : String)
  | thisMachine
  | otherMachine
  | dialect (name : String)
  | bytes (values : List Lazy)
  | words (values : List Lazy)
  | endOfSource
  | reserveBytes (count : Lazy)
  | reserveWords (count : Lazy)
  | even
  | align (modulus : Lazy)
  | ascii (s : String)
  | asciz (s : String)
  | makeArtifact (a : Output.Artifact)
  | koi8r
  | decimalNumbers
  | insertFile (name : String)
  | equate (name : String) (value : Lazy)
deriving Inhabited

inductive Command where
  | single (header : Header) (operation : Operation)
  | repetition (header : Header) (count : Lazy) (body : List Command)

namespace Command

instance : Inhabited Command := ⟨.single default default⟩

def header : Command → Header
  | .single h _ => h
  | .repetition h _ _ => h

end Command

/-- The names after the dot that commands can have. -/
inductive Keyword where
  | link
  | includeFile
  | thisMachine
  | otherMachine
  | dialect
  | bytes
  | words
  | endOfSource
  | reserveBytes
  | reserveWords
  | even
  | align
  | ascii
  | asciz
  | makeRaw
  | makeBin
  | koi8r
  | decimalNumbers
  | insertFile
  | equate
  | repetition
deriving DecidableEq, Repr

def Keyword.table : List (String × Keyword) := [
  (".LINK", .link), (".LA", .link), (".INCLUDE", .includeFile), (".PDP11", .thisMachine),
  (".I8080", .otherMachine), (".SYNTAX", .dialect), (".BYTE", .bytes), (".WORD", .words),
  (".END", .endOfSource), (".BLKB", .reserveBytes), (".BLKW", .reserveWords), (".EVEN", .even),
  (".ALIGN", .align), (".ASCII", .ascii), (".ASCIZ", .asciz), (".MAKE_RAW", .makeRaw),
  (".MAKE_BIN", .makeBin), (".CONVERT1251TOKOI8R", .koi8r), (".DECIMALNUMBERS", .decimalNumbers),
  (".INSERT_FILE", .insertFile), (".EQU", .equate), (".REPEAT", .repetition)]

def Keyword.ofName? (name : String) : Option Keyword := Keyword.table.lookup name

end Eleven.Source

import Eleven.Disassembly.Flow
import Eleven.Text.Quoted

/-! Bytes that are not code, as directives. -/
namespace Eleven.Disassembly

/-- The label of an address, if it has one. -/
abbrev Labels := Int64 → Option Label

/-- Cuts bytes before each label but the first address. -/
def dataRuns (labels : Labels) : Int64 → List UInt8 → List (Int64 × List UInt8)
  | _, [] => []
  | address, b :: rest =>
    match dataRuns labels (address + 1) rest with
    | [] => [(address, [b])]
    | (next, bytes) :: runs =>
      if (labels next).isSome then (address, [b]) :: (next, bytes) :: runs
      else (address, b :: bytes) :: runs

def isPrintableByte (b : UInt8) : Bool := 0x20 ≤ b.toNat && b.toNat ≤ 0x7E

/-- The shortest text that is written as one. -/
def minTextLength : Nat := 4

def bytesPerLine : Nat := 8

def byteLine (bytes : List UInt8) : String :=
  "\t.BYTE  " ++ ", ".intercalate (bytes.map fun b => Text.bareOctal (Int64.ofNat b.toNat)) ++ "\n"

/-- Lines of bytes. Every line takes one byte at least. -/
def byteLines : Nat → List UInt8 → String
  | _, [] => ""
  | 0, _ :: _ => ""
  | room + 1, b :: bytes =>
    byteLine ((b :: bytes).take bytesPerLine) ++ byteLines room ((b :: bytes).drop bytesPerLine)

def bytesText (bytes : List UInt8) : String := byteLines bytes.length bytes

def escapeByte (b : UInt8) : List Char :=
  let c := Char.ofNat b.toNat
  if c = Text.backslash || c = Text.doubleQuote then [Text.backslash, c] else [c]

def textLine (bytes : List UInt8) : String :=
  "\t.ASCIZ " ++
    String.ofList (Text.doubleQuote :: (bytes.flatMap escapeByte ++ [Text.doubleQuote])) ++ "\n"

/-- Printable bytes before a zero are written as a text if they are enough; all else as bytes. -/
def runLines : Nat → List UInt8 → String
  | _, [] => ""
  | 0, _ :: _ => ""
  | room + 1, b :: bytes =>
    let front := (b :: bytes).takeWhile fun b => !isPrintableByte b
    let rest := (b :: bytes).dropWhile fun b => !isPrintableByte b
    let text := rest.takeWhile isPrintableByte
    match rest.dropWhile isPrintableByte with
    | [] => bytesText (front ++ text)
    | z :: after =>
      if z = 0 && text.length ≥ minTextLength then
        bytesText front ++ textLine text ++ runLines room after
      else bytesText (front ++ text) ++ runLines room (z :: after)

def runText (bytes : List UInt8) : String := runLines bytes.length bytes

/-- The line that puts a label at an address. -/
def labelLine (labels : Labels) (address : Int64) : String :=
  match labels address with
  | some label => labelName address label ++ ":\n"
  | none => ""

/-- Bytes from an address on, with the labels that point at them. -/
def dataText (bytes : List UInt8) (address : Int64) (labels : Labels) : String :=
  String.join ((dataRuns labels address bytes).map fun r => labelLine labels r.1 ++ runText r.2)

end Eleven.Disassembly

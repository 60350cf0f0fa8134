import Eleven.Disassembly.Line
import Eleven.Failure.Basic

/-! A linear sweep over an image, and its printed form. -/
namespace Eleven.Disassembly

/-- Decodes one line after the other. Every line covers a byte at least. -/
def sweep : Nat → Int64 → List UInt8 → List Line
  | _, _, [] => []
  | _, address, [b] => [⟨address, [], .byte b⟩]
  | 0, _, _ :: _ :: _ => []
  | room + 1, address, low :: high :: rest =>
    let l := Line.decode address (Machine.wordOfBytes low high) rest
    l :: sweep room (address + Int64.ofNat l.size) (rest.drop (l.size - 2))

/-- Whether an image of a size may be loaded at a base: an even address from which the image ends
inside the address space, its end being computed in 64 bits. -/
def isValidBase (base : Int64) (size : Nat) : Bool :=
  !(base < 0 || base % 2 != 0 || base + Int64.ofNat size > Int64.ofNat Machine.addressSpace)

def invalidBase (base : Int64) (size : Nat) : Failure :=
  .plain ("invalid base address " ++ Text.bareOctal base ++ " for " ++ toString size ++ " bytes")

def disassemble (code : List UInt8) (base : Int64) : Except Failure (List Line) :=
  if isValidBase base code.length then .ok (sweep code.length base code)
  else .error (invalidBase base code.length)

/-- Blanks after a text up to a width. -/
def padRight (width : Nat) (s : String) : String :=
  s ++ String.ofList (List.replicate (width - s.length) ' ')

/-- The covered words and byte in octal. -/
def rawText (l : Line) : String :=
  " ".intercalate (l.words.map (fun w => Text.paddedOctal 6 (Machine.unsignedWord w)) ++
    l.trailing.map fun b => Text.paddedOctal 3 (Int64.ofNat b.toNat))

def listingLine (l : Line) : String :=
  Text.paddedOctal 6 l.address ++ ": " ++ padRight 20 (rawText l) ++ " " ++ padRight 6 l.mnemonic ++
    " " ++ l.operands ++ "\n"

def listing (lines : List Line) : String := String.join (lines.map listingLine)

end Eleven.Disassembly

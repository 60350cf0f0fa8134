/-! Words of sixteen bits and the bytes that hold them, low byte first. -/
namespace Eleven.Machine

/-- The low byte of a word is stored first. -/
def bytesOfWord (w : UInt16) : List UInt8 := [w.toUInt8, (w >>> 8).toUInt8]

def wordOfBytes (low high : UInt8) : UInt16 := low.toUInt16 ||| (high.toUInt16 <<< 8)

def wordsToBytes (words : List UInt16) : List UInt8 := words.flatMap bytesOfWord

/-- A last byte without a partner is the low byte of a word. -/
def bytesToWords : List UInt8 → List UInt16
  | [] => []
  | [low] => [wordOfBytes low 0]
  | low :: high :: rest => wordOfBytes low high :: bytesToWords rest

/-- The number of bytes that sixteen address bits reach. -/
def addressSpace : Nat := 0o200000

/-- A word as a signed number. -/
def signedWord (w : UInt16) : Int64 := w.toInt16.toInt64

def unsignedWord (w : UInt16) : Int64 := Int64.ofNat w.toNat

/-- The low sixteen bits of an address. -/
def wrapAddress (a : Int64) : UInt16 := a.toUInt64.toUInt16

end Eleven.Machine

/-! Text as UTF-8 bytes. A byte that starts no well-formed character reads as U+FFFD by itself. -/
namespace Eleven.Text

def encodeUtf8 (s : String) : List UInt8 := s.toList.flatMap String.utf8EncodeChar

def replacement : Char := Char.ofNat 0xFFFD

/-- How many bytes follow a lead byte, the bits the lead contributes, and the least code point that
needs this length. -/
def leadByte? (b : UInt8) : Option (Nat × Nat × Nat) :=
  let n := b.toNat
  if 0xC2 ≤ n && n ≤ 0xDF then some (1, n - 0xC0, 0x80)
  else if 0xE0 ≤ n && n ≤ 0xEF then some (2, n - 0xE0, 0x800)
  else if 0xF0 ≤ n && n ≤ 0xF4 then some (3, n - 0xF0, 0x10000)
  else none

/-- Appends the six bits of each of the next `count` bytes, which must be continuation bytes. -/
def continuation? : Nat → Nat → List UInt8 → Option Nat
  | 0, acc, _ => some acc
  | _ + 1, _, [] => none
  | count + 1, acc, b :: rest =>
    if 0x80 ≤ b.toNat && b.toNat ≤ 0xBF then continuation? count (acc * 64 + (b.toNat - 0x80)) rest
    else none

/-- The character that starts at `b` and the number of bytes after `b` that belong to it. -/
def charAt (b : UInt8) (rest : List UInt8) : Char × Nat :=
  if b.toNat < 0x80 then (Char.ofNat b.toNat, 0)
  else match leadByte? b with
    | none => (replacement, 0)
    | some (count, bits, least) =>
      match continuation? count bits rest with
      | none => (replacement, 0)
      | some n => if least ≤ n && n.isValidChar then (Char.ofNat n, count) else (replacement, 0)

/-- Drops `skip` bytes that belong to the character before, then reads on. -/
def decodeFrom : Nat → List UInt8 → List Char
  | _, [] => []
  | skip + 1, _ :: rest => decodeFrom skip rest
  | 0, b :: rest => (charAt b rest).1 :: decodeFrom (charAt b rest).2 rest

def decodeUtf8 (bytes : List UInt8) : String := String.ofList (decodeFrom 0 bytes)

end Eleven.Text

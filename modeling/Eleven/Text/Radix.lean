/-! Integers written in octal, the radix in which the machine's words are read and printed. -/
namespace Eleven.Text

/-- The digits of `n` behind a minus sign if `n` is negative. -/
def signedDigits (radix : Nat) (n : Int) : List Char :=
  if n < 0 then '-' :: Nat.toDigits radix n.natAbs else Nat.toDigits radix n.natAbs

/-- Octal without a mark. -/
def bareOctal (n : Int64) : String := String.ofList (signedDigits 8 n.toInt)

/-- Octal behind the mark `0o`. The sign is taken off by 64-bit negation, which keeps the least
integer as it is, so that number shows its sign twice. -/
def octal (n : Int64) : String :=
  if n < 0 then "-0o" ++ bareOctal (-n) else "0o" ++ bareOctal n

/-- Octal behind a leading zero, the mark of the image header. -/
def zeroOctal (n : Int64) : String :=
  String.ofList (if n < 0 then '-' :: '0' :: Nat.toDigits 8 n.toInt.natAbs
    else '0' :: Nat.toDigits 8 n.toInt.natAbs)

/-- Zeros go between the sign and the digits until `width` characters are reached. -/
def paddedOctal (width : Nat) (n : Int64) : String :=
  let digits := Nat.toDigits 8 n.toInt.natAbs
  if n < 0 then
    String.ofList ('-' :: (List.replicate (width - 1 - digits.length) '0' ++ digits))
  else String.ofList (List.replicate (width - digits.length) '0' ++ digits)

def decimal (n : Int64) : String := String.ofList (signedDigits 10 n.toInt)

end Eleven.Text

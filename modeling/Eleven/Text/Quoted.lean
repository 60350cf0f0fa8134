import Eleven.Text.Printable

/-! Quoting: printable characters stand for themselves, all others are escaped. -/
namespace Eleven.Text

def backslash : Char := Char.ofNat 0x5C

def doubleQuote : Char := Char.ofNat 0x22

def singleQuote : Char := Char.ofNat 0x27

/-- Exactly `width` lower-case hexadecimal digits of a number that fits. -/
def hexDigits (width n : Nat) : List Char :=
  let digits := Nat.toDigits 16 n
  List.replicate (width - digits.length) '0' ++ digits

/-- The letter of a control character that has one. -/
def controlLetter? (c : Char) : Option Char :=
  match c.toNat with
  | 7 => some 'a'
  | 8 => some 'b'
  | 9 => some 't'
  | 10 => some 'n'
  | 11 => some 'v'
  | 12 => some 'f'
  | 13 => some 'r'
  | _ => none

/-- The quote itself and the backslash are escaped although they print. -/
def escapeChar (quote c : Char) : List Char :=
  if c = quote || c = backslash then [backslash, c]
  else if isPrintable c then [c]
  else match controlLetter? c with
    | some letter => [backslash, letter]
    | none =>
      if c.toNat < 0x20 || c.toNat = 0x7F then backslash :: 'x' :: hexDigits 2 c.toNat
      else if c.toNat < 0x10000 then backslash :: 'u' :: hexDigits 4 c.toNat
      else backslash :: 'U' :: hexDigits 8 c.toNat

def quoteChars (cs : List Char) : List Char :=
  doubleQuote :: (cs.flatMap (escapeChar doubleQuote) ++ [doubleQuote])

/-- A text between double quotes. -/
def quote (s : String) : String := String.ofList (quoteChars s.toList)

/-- One character between single quotes. -/
def quoteChar (c : Char) : String :=
  String.ofList (singleQuote :: (escapeChar singleQuote c ++ [singleQuote]))

end Eleven.Text

import Eleven.Text.Blank
import Eleven.Text.Digit
import Eleven.Text.Quoted

/-! The words of a source line. -/
namespace Eleven.Source

inductive Lexeme where
  | ident (name : String)
  | number (digits : String)
  | text (s : String)
  | punct (c : Char)
deriving DecidableEq, Repr, Inhabited

namespace Lexeme

/-- The characters of a lexeme; for a quoted text, those it stands for. -/
def value : Lexeme → String
  | .ident name => name
  | .number digits => digits
  | .text s => s
  | .punct c => String.singleton c

/-- A lexeme as it could be written, quoted if it is a text. -/
def spelling : Lexeme → String
  | .text s => Text.quote s
  | l => l.value

end Lexeme

/-- A lexeme and the column, counted from one, where it starts. -/
structure Token where
  lexeme : Lexeme
  column : Nat
deriving DecidableEq, Repr, Inhabited

def isPunctuation (c : Char) : Bool :=
  c ∈ [',', ':', '=', '(', ')', '+', '-', '*', '/', '#', '@', '\x7b', '\x7d']

/-- ASCII letters, `_` and `$`. -/
def isNameStart (c : Char) : Bool := c = '_' || c = '$' || c.isAlpha

def isNameChar (c : Char) : Bool := isNameStart c || Text.isDigit c

/-- Why a line cannot be cut into tokens. -/
inductive LexicalFault where
  | unexpectedChar (column : Nat) (c : Char)
  | unterminatedText (column : Nat)
deriving DecidableEq, Repr

def LexicalFault.message : LexicalFault → String
  | .unexpectedChar column c =>
    "column " ++ toString column ++ ": unexpected character " ++ Text.quoteChar c
  | .unterminatedText column => "column " ++ toString column ++ ": unterminated string"

/-- The character that a backslash makes of the next one. -/
def unescape (c : Char) : Char :=
  if c = 'n' then '\n'
  else if c = 'r' then '\r'
  else if c = 't' then '\t'
  else if c = '0' then Char.ofNat 0
  else c

/-- Reads on to the closing quote. Gives the characters meant, the number of characters read, and
the rest. -/
def scanText (quote : Char) : List Char → Option (List Char × Nat × List Char)
  | [] => none
  | c :: rest =>
    if c = quote then some ([], 1, rest)
    else if c = Text.backslash then
      match rest with
      | [] => none
      | d :: rest => (scanText quote rest).map fun r => (unescape d :: r.1, r.2.1 + 2, r.2.2)
    else (scanText quote rest).map fun r => (c :: r.1, r.2.1 + 1, r.2.2)

/-- The characters of a number after its first digit: name characters, then a dot if there is one.
-/
def numberTail (cs : List Char) : List Char :=
  match cs.dropWhile isNameChar with
  | '.' :: _ => cs.takeWhile isNameChar ++ ['.']
  | _ => cs.takeWhile isNameChar

/-- A name may start with a dot if a letter, `_` or `$` follows it. -/
def startsName (c : Char) (rest : List Char) : Bool :=
  isNameStart c || (c = '.' && (rest.head?.map isNameStart).getD false)

/-- Cuts the characters from a column on into tokens. A semicolon ends the line. Every round takes
at least one character, so as many rounds as there are characters are enough. -/
def scan : Nat → Nat → List Char → Except LexicalFault (List Token)
  | _, _, [] => .ok []
  | 0, _, _ :: _ => .ok []
  | room + 1, column, c :: rest =>
    if c = ';' then .ok []
    else if Text.isBlank c then scan room (column + 1) rest
    else if c = Text.doubleQuote || c = Text.singleQuote then
      match scanText c rest with
      | none => .error (.unterminatedText column)
      | some (value, used, rest) => do
        let ts ← scan room (column + 1 + used) rest
        .ok (⟨.text (String.ofList value), column⟩ :: ts)
    else if Text.isDigit c then do
      let tail := numberTail rest
      let ts ← scan room (column + 1 + tail.length) (rest.drop tail.length)
      .ok (⟨.number (String.ofList (c :: tail)), column⟩ :: ts)
    else if startsName c rest then do
      let tail := rest.takeWhile isNameChar
      let ts ← scan room (column + 1 + tail.length) (rest.drop tail.length)
      .ok (⟨.ident (String.ofList (c :: tail)), column⟩ :: ts)
    else if isPunctuation c then do
      let ts ← scan room (column + 1) rest
      .ok (⟨.punct c, column⟩ :: ts)
    else .error (.unexpectedChar column c)

/-- The tokens of a line, without its comment. -/
def tokenize (line : String) : Except LexicalFault (List Token) :=
  let cs := line.toList
  scan cs.length 1 cs

end Eleven.Source

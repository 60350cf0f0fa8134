import Eleven.Text.Quoted
import Eleven.Text.Radix

/-! The symbol table as a coloured map. -/
namespace Eleven.Tools

def escapeCode (code : String) : String := String.singleton (Char.ofNat 0x1B) ++ "[" ++ code ++ "m"

def inRed (s : String) : String := escapeCode "31" ++ s ++ escapeCode "0"

def inBoldRed (s : String) : String := escapeCode "31" ++ escapeCode "1" ++ s ++ escapeCode "0"

def inGreen (s : String) : String := escapeCode "32" ++ s ++ escapeCode "0"

def inBoldBlue (s : String) : String := escapeCode "34" ++ escapeCode "1" ++ s ++ escapeCode "0"

def inBoldMagenta (s : String) : String := escapeCode "35" ++ escapeCode "1" ++ s ++ escapeCode "0"

/-- Plain characters and escapes in turn, each in its colour. Plain ones that stand together share
one colour; `run` holds them, last first. -/
def colourPieces : List Char → List (List Char) → String
  | run, [] => if run = [] then "" else inRed (String.ofList run.reverse)
  | run, piece :: pieces =>
    match piece with
    | [c] => colourPieces (c :: run) pieces
    | piece =>
      (if run = [] then "" else inRed (String.ofList run.reverse)) ++
        inBoldMagenta (String.ofList piece) ++ colourPieces [] pieces

def colourText (s : String) : String :=
  let mark := inBoldRed (String.singleton Text.doubleQuote)
  mark ++ colourPieces [] (s.toList.map (Text.escapeChar Text.doubleQuote)) ++ mark

/-- Sorted insertion by name, for names that differ. -/
def insertByName (e : String × Int64) : List (String × Int64) → List (String × Int64)
  | [] => [e]
  | f :: rest => if e.1 < f.1 then e :: f :: rest else f :: insertByName e rest

def sortByName (es : List (String × Int64)) : List (String × Int64) := es.foldr insertByName []

/-- Values stand in one column, a blank after the longest name. -/
def mapLine (width : Nat) (e : String × Int64) : String :=
  let key := "  " ++ colourText e.1 ++ ":"
  key ++ String.ofList (List.replicate (width + 1 - key.length) ' ') ++
    inBoldBlue (Text.decimal e.2) ++ ",\n"

def colourMap (es : List (String × Int64)) : String :=
  let sorted := sortByName es
  let width := sorted.foldl (fun w e => max w ("  " ++ colourText e.1 ++ ":").length) 0
  if sorted.isEmpty then inGreen "map[string]int" ++ "\x7b\x7d"
  else inGreen "map[string]int" ++ "\x7b\n" ++ String.join (sorted.map (mapLine width)) ++ "\x7d"

end Eleven.Tools

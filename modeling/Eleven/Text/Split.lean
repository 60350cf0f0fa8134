/-! Cutting text at separators. -/
namespace Eleven.Text

/-- The pieces between separators; there is always at least one. -/
def split (sep : Char) : List Char → List (List Char)
  | [] => [[]]
  | c :: rest =>
    if c = sep then [] :: split sep rest
    else match split sep rest with
      | [] => [[c]]
      | piece :: pieces => (c :: piece) :: pieces

/-- A carriage return right before a line feed belongs to the line end. -/
def dropCarriageReturns : List Char → List Char
  | [] => []
  | [c] => [c]
  | c :: d :: rest =>
    if c = '\r' && d = '\n' then dropCarriageReturns (d :: rest)
    else c :: dropCarriageReturns (d :: rest)

def lines (s : String) : List String :=
  (split '\n' (dropCarriageReturns s.toList)).map String.ofList

/-- The text without the characters at its end that satisfy `p`. -/
def dropTrailing (p : Char → Bool) (cs : List Char) : List Char :=
  (cs.reverse.dropWhile p).reverse

end Eleven.Text

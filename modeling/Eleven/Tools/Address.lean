import Eleven.Text.Integer
import Eleven.Text.Quoted

/-! Octal addresses given on a command line. -/
namespace Eleven.Tools

/-- An octal number of at most 32 bits, or the reason why it is none. -/
def readAddress (s : String) : Except String Int64 :=
  match Text.readInteger 8 32 s.toList with
  | .ok n => .ok (Int64.ofInt n)
  | .error f =>
    .error ("strconv.ParseInt: parsing " ++ Text.quote s ++ ": " ++
      match f with
      | .badForm => "invalid syntax"
      | .outOfRange => "value out of range")

end Eleven.Tools

/-! Character properties as lists of closed ranges of code points. -/
namespace Eleven.Text

abbrev Ranges := List (Nat × Nat)

def Ranges.contain (rs : Ranges) (n : Nat) : Bool :=
  rs.any fun r => r.1 ≤ n && n ≤ r.2

end Eleven.Text

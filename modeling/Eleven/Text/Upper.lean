/-! Upper case as far as names of instructions and registers need it. -/
namespace Eleven.Text

/-- Beside the ASCII letters, the long s and the dotless i are the only characters whose upper-case
form is an ASCII letter. -/
def upperChar (c : Char) : Char :=
  if c.toNat = 0x17F then 'S' else if c.toNat = 0x131 then 'I' else c.toUpper

def upper (s : String) : String := String.ofList (s.toList.map upperChar)

end Eleven.Text

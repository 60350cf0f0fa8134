import Eleven.Disassembly.Line

/-! Which instructions control flow reaches, and which places they name. -/
namespace Eleven.Disassembly

/-- The lines at every word boundary of an image, overlapping ones included. -/
def wordLines : Int64 → List UInt8 → List Line
  | address, low :: high :: rest =>
    Line.decode address (Machine.wordOfBytes low high) rest :: wordLines (address + 2) rest
  | _, _ => []

/-- Whether execution never goes on with the next instruction. -/
def isTerminal (l : Line) : Bool :=
  l.mnemonic ∈ ["HALT", "BR", "JMP", "RTS", "RTI", "RTT"]

/-- The place where the line can send control. A deferred operand names a vector, not the code. -/
def jumpTarget? (l : Line) : Option UInt16 :=
  match l.place? with
  | none => none
  | some (deferred, a) =>
    if l.kind == .branch || l.kind == .sob ||
        ((l.mnemonic == "JMP" || l.mnemonic == "JSR") && !deferred)
    then some a else none

/-- The addresses where execution can go on after a line. -/
def successors (l : Line) : List Int64 :=
  (if isTerminal l then [] else [l.address + Int64.ofNat l.size]) ++
    (jumpTarget? l).toList.map Machine.unsignedWord

/-- The position, among lines at word boundaries from `base` on, of the one at an address. -/
def lineIndex? (base address : Int64) : Option Nat :=
  let distance := address - base
  if distance < 0 || distance % 2 != 0 then none else some (distance.toNatClampNeg / 2)

/-- Marks what is reached from the pending addresses. A line is marked once and then makes at most
two addresses pending. -/
def markFrom (base : Int64) (lines : Array Line) : Nat → List Int64 → Array Bool → Array Bool
  | 0, _, marks => marks
  | _ + 1, [], marks => marks
  | room + 1, a :: pending, marks =>
    match lineIndex? base a with
    | none => markFrom base lines room pending marks
    | some i =>
      match lines[i]? with
      | none => markFrom base lines room pending marks
      | some l =>
        if marks.getD i true || !l.isInstruction then markFrom base lines room pending marks
        else markFrom base lines room (successors l ++ pending) (marks.setIfInBounds i true)

/-- Which lines control flow reaches from the base. -/
def reached (base : Int64) (lines : Array Line) : Array Bool :=
  markFrom base lines (2 * lines.size + 2) [base] (Array.replicate lines.size false)

/-- The lines that are reached, each at its word boundary. -/
def reachedLines (base : Int64) (code : List UInt8) : List (Option Line) :=
  let lines := wordLines base code
  List.zipWith (fun l m => if m then some l else none) lines (reached base lines.toArray).toList

inductive Label where
  /-- A place that an instruction names. -/
  | place
  /-- A place that is called. -/
  | subroutine
deriving DecidableEq, Repr

/-- The label of an address that reached lines name. A call wins over other uses. -/
def labelFor? (reached : List Line) (address : Int64) : Option Label :=
  let uses := reached.filter fun l => l.target?.map Machine.unsignedWord == some address
  if uses.isEmpty then none
  else if uses.any (·.mnemonic == "JSR") then some .subroutine
  else some .place

def labelName (address : Int64) (label : Label) : String :=
  (match label with
    | .place => "LOC"
    | .subroutine => "SUB") ++ Text.paddedOctal 6 address

end Eleven.Disassembly

import Eleven.Disassembly.Data
import Eleven.Disassembly.Listing

/-! An image as source text: code where control flow goes, data elsewhere. -/
namespace Eleven.Disassembly

/-- A part of the image: one instruction, or bytes up to the next one. -/
inductive Segment where
  | code (l : Line)
  | data (address : Int64) (bytes : List UInt8)

/-- Lays out the bytes from an address on. The options tell which instruction, if any, is reached at
each word boundary. The first argument counts words that belong to the instruction before. -/
def layout : Nat → Int64 → List (Option Line) → List UInt8 → List Segment
  | covered, address, line? :: lines, low :: high :: rest =>
    match covered with
    | covered + 1 => layout covered (address + 2) lines rest
    | 0 =>
      match line? with
      | some l => .code l :: layout (l.words.length - 1) (address + 2) lines rest
      | none =>
        match layout 0 (address + 2) lines rest with
        | .data _ bytes :: segments => .data address (low :: high :: bytes) :: segments
        | segments => .data address [low, high] :: segments
  | _, _, _, [] => []
  | _, address, _, bytes => [.data address bytes]

namespace Segment

/-- Whether an address is the start of an instruction or that of a byte of data. -/
def shows (address : Int64) : Segment → Bool
  | .code l => l.address == address
  | .data start bytes => start ≤ address && address < start + Int64.ofNat bytes.length

end Segment

/-- The operands with the first place replaced by its label. -/
def labelledArgs (labels : Labels) : List Arg → List String
  | [] => []
  | .place deferred a :: rest =>
    (match labels (Machine.unsignedWord a) with
      | some label => deferredMark deferred ++ labelName (Machine.unsignedWord a) label
      | none => (Arg.place deferred a).text) :: rest.map Arg.text
  | arg :: rest => arg.text :: labelledArgs labels rest

def codeText (labels : Labels) (l : Line) : String :=
  let args := labelledArgs labels l.args
  labelLine labels l.address ++
    (if args.isEmpty then "\t" ++ l.mnemonic ++ "\n"
      else "\t" ++ padRight 6 l.mnemonic ++ " " ++ ", ".intercalate args ++ "\n")

def segmentText (labels : Labels) : Segment → String
  | .code l => codeText labels l
  | .data address bytes => dataText bytes address labels

/-- Labels are kept where the text shows their address. -/
def visibleLabels (reached : List Line) (segments : List Segment) : Labels := fun address =>
  if segments.any (Segment.shows address) then labelFor? reached address else none

/-- The segments of an image. An image whose end lies before its base has none. -/
def segmentsOf (base : Int64) (code : List UInt8) (lines : List (Option Line)) : List Segment :=
  if base < base + Int64.ofNat code.length then layout 0 base lines code else []

/-- Source text that assembles to the image. -/
def sourceText (code : List UInt8) (base : Int64) : Except Failure String :=
  if isValidBase base code.length then
    if code.isEmpty then .ok ""
    else
      let lines := reachedLines base code
      let segments := segmentsOf base code lines
      let labels := visibleLabels (lines.filterMap id) segments
      .ok ("\t.LINK " ++ Text.bareOctal base ++ "\n" ++
        String.join (segments.map (segmentText labels)))
  else .error (invalidBase base code.length)

end Eleven.Disassembly

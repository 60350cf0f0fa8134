import Eleven.Assembly.Compile

/-! Linking: every symbol and every store resolved into memory. -/
namespace Eleven.Assembly

structure Image where
  build : List Output.Artifact
  /-- Memory from the link address to the last byte stored. -/
  data : List UInt8
  link : Int64
  symbols : List (String × Int64)

/-- Memory with zeros up to a size. -/
def growTo (size : Nat) (memory : Array UInt8) : Array UInt8 :=
  if memory.size < size then memory ++ Array.replicate (size - memory.size) 0 else memory

/-- The bytes of a store: one integer or a list of them. -/
def payload : Datum → Except Failure (List Int64)
  | .int n => .ok [n]
  | .list xs => .ok xs
  | d => .error (.fault (.notBytes d))

/-- Stores bytes one after the other. -/
def storeFrom (pos : Position) : Array UInt8 → Nat → List Int64 → Except Failure (Array UInt8)
  | memory, _, [] => .ok memory
  | memory, address, b :: bs =>
    if b < 0 ∨ b > 0xFF then .error ((Problem.byteTooBig b).failure pos)
    else if address < memory.size then
      storeFrom pos (memory.setIfInBounds address (UInt8.ofNat b.toNatClampNeg)) (address + 1) bs
    else .error (.fault (.storeOutside (Int64.ofNat address) memory.size))

/-- Stores bytes at an address. The end of the store is computed in 64 bits, as addresses are. -/
def store (pos : Position) (memory : Array UInt8) (address : Int64) (bytes : List Int64) :
    Except Failure (Array UInt8) :=
  let last := address + Int64.ofNat bytes.length
  if address < 0 ∨ last > Int64.ofNat Machine.addressSpace then
    .error ((Problem.addressOutside address).failure pos)
  else storeFrom pos (growTo last.toNatClampNeg memory) address.toNatClampNeg bytes

/-- The bytes of a store and its address; the bytes are resolved first. -/
def resolveWrite (w : Write) : Attempt SymbolTable (List Int64 × Int64) :=
  Attempt.mapFailure (Failure.annotate w.position) do
    let d ← w.data.eval SymbolTable.lookup
    let bytes ← payload d
    let address ← w.address.resolveInt SymbolTable.lookup
    pure (bytes, address)

/-- Carries out stores in order; a later one overwrites an earlier one. -/
def storeAll : Array UInt8 → List Write → Attempt SymbolTable (Array UInt8)
  | memory, [] => pure memory
  | memory, w :: ws => do
    let (bytes, address) ← resolveWrite w
    let memory ← store w.position memory address bytes
    storeAll memory ws

def resolveLink (link : Lazy) : Attempt SymbolTable Int64 := do
  let n ← Attempt.mapFailure (fun e => (Failure.within "link address" e).annotate .nowhere)
    (link.resolveInt SymbolTable.lookup)
  if n < 0 then throw ((Problem.negativeLink n).failure .nowhere) else pure n

namespace Session

/-- Resolves every symbol, then every store, then the link address. -/
def linkImage : Attempt Session Image := do
  let s ← get
  onSymbols SymbolTable.resolveAll
  let memory ← onSymbols (storeAll #[] s.writes)
  let link ← onSymbols (resolveLink s.link)
  let s ← get
  pure ⟨s.build, memory.toList.drop link.toNatClampNeg, link, s.symbols.values⟩

/-- One source, assembled and linked at an address. -/
def assemble (fs : Files.FileSystem) (text : String) (link : Int64) :
    Attempt Session (List UInt8) := do
  modify (setLink link)
  addSource fs "input" text
  let image ← linkImage
  pure image.data

end Session

end Eleven.Assembly

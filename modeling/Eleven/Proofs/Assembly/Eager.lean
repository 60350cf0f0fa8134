import Eleven.Assembly.Image
import Eleven.Proofs.Assembly.Backend
import Eleven.Proofs.Lazy.Arithmetic
import Mathlib.Tactic.SplitIfs

/-! An assembler that leaves nothing to a linker. The values of symbols are given beforehand, the
location counter is an integer, every expression is evaluated where it stands, and bytes go straight
into memory. -/
namespace Eleven.Assembly.Eager

open Eleven.Files (FileSystem)
open Eleven.Machine (Instruction unsignedWord)
open Eleven.Source (Header Operation Operand)

structure State where
  /-- The location counter, or why the link directive that set it gave none. -/
  pc : Except Failure Int64
  memory : Array UInt8
  /-- Texts are stored in KOI8-R. -/
  koi8r : Bool
  /-- The files being assembled, innermost first. -/
  files : List String
  /-- The labels met and the addresses they stood at, latest first. -/
  labels : List (String × Int64)
  /-- The constants met and what their expressions came to, latest first. -/
  equates : List (String × Int64)
  /-- What the addresses of the link directives met came to, latest first. -/
  links : List (Except Failure Int64)

namespace State

def start (address : Int64) : State := ⟨.ok address, #[], false, [], [], [], []⟩

/-- Stores bytes at the location counter and moves it behind them. -/
def put (s : State) (pos : Position) (bytes : List Int64) : Except Failure State := do
  let p ← s.pc
  let memory ← store pos s.memory p bytes
  .ok { s with memory := memory, pc := .ok (p + Int64.ofNat bytes.length) }

def putByte (s : State) (pos : Position) (n : Int64) : Except Failure State := do
  let b ← Session.storedByte pos n
  s.put pos [b]

/-- The low byte goes first. -/
def putWord (s : State) (pos : Position) (n : Int64) : Except Failure State := do
  let w ← Session.storedWord pos n
  let s ← s.put pos [w &&& 0xFF]
  s.put pos [w >>> 8]

/-- Puts integers one after the other. -/
def putEach (put : State → Int64 → Except Failure State) (s : State) :
    List Int64 → Except Failure State
  | [] => .ok s
  | n :: ns => do
    let s ← put s n
    putEach put s ns

def putBytes (s : State) (pos : Position) (ns : List Int64) : Except Failure State :=
  s.putEach (·.putByte pos) ns

def putWords (s : State) (pos : Position) (ns : List Int64) : Except Failure State :=
  s.putEach (·.putWord pos) ns

def putText (s : State) (pos : Position) (text : String) (ending : List Int64) :
    Except Failure State :=
  match textBytes s.koi8r text with
  | .ok bs => s.put pos (bs ++ ending)
  | .error p => .error (p.failure pos)

def putFile (fs : FileSystem) (s : State) (pos : Position) (name : String) :
    Except Failure State :=
  let path := Path.resolve pos.file name
  match fs.read path with
  | .ok bytes => s.put pos (bytes.map fun b => Int64.ofNat b.toNat)
  | .error f => .error ((Problem.cannotInsert path f).failureOf pos (.file f))

def putZeros (s : State) (pos : Position) (n : Int64) : Except Failure State :=
  if n < 0 then .error (.fault (.negativeCount n))
  else s.put pos (List.replicate n.toNatClampNeg 0)

def putPadding (s : State) (pos : Position) (n : Int64) : Except Failure State := do
  let k ← alignmentCheck pos n
  let p ← s.pc
  s.put pos (knownPadding p k)

/-- Moves the location counter. An address that has no value is refused at once, or else when the
location counter is used. -/
def moveTo (atOnce : Bool) (address : Except Failure Int64) (s : State) : Except Failure State :=
  match atOnce, address with
  | true, .error e => .error e
  | _, address => .ok { s with pc := address, links := address :: s.links }

def meetLabel (name : String) (s : State) : Except Failure State := do
  let p ← s.pc
  .ok { s with labels := (name, p) :: s.labels }

def meetEquate (name : String) (n : Int64) (s : State) : State :=
  { s with equates := (name, n) :: s.equates }

end State

section Values

variable (env : Env)

def values : List Lazy → Except Failure (List Int64)
  | [] => .ok []
  | v :: vs => do
    let n ← v.intValue env
    let ns ← values vs
    .ok (n :: ns)

def operandValue (i : Instruction) (pos : Position) (o : Operand) : Except Failure Int64 := do
  let v ← requireExpression i pos o
  v.intValue env

/-- The first word of an instruction at an address. -/
def firstWord (i : Instruction) (os : List Operand) (pc : Int64) (pos : Position) :
    Except Failure Int64 :=
  match i.kind, os with
  | .zero, [] => .ok (unsignedWord i.opcode)
  | .one, [o] => do
    requireAddress i pos o
    .ok (unsignedWord (i.opcode ||| o.field))
  | .two, [s, d] => do
    requireAddress i pos s
    requireAddress i pos d
    .ok (unsignedWord (i.opcode ||| (s.field <<< 6) ||| d.field))
  | .register, [r, d] => do
    requireRegister i pos r
    requireAddress i pos d
    .ok (unsignedWord (i.opcode ||| (r.register.number <<< 6) ||| d.field))
  | .registerSource, [s, r] => do
    requireAddress i pos s
    requireRegister i pos r
    .ok (unsignedWord (i.opcode ||| (r.register.number <<< 6) ||| s.field))
  | .rts, [r] => do
    requireRegister i pos r
    .ok (unsignedWord (i.opcode ||| r.register.number))
  | .immediate, [o] => do
    let n ← operandValue env i pos o
    immediateWord i pos n
  | .branch, [o] => do
    let target ← operandValue env i pos o
    branchWord i pos (target - (pc + 2))
  | .sob, [r, o] => do
    requireRegister i pos r
    let target ← operandValue env i pos o
    sobWord i (Int64.ofNat r.register.number.toNat) pos (pc + 2 - target)
  | _, _ => .error ((Problem.unknownCommand i.name).failure pos)

/-- The words after the first and `count` more. -/
def extraWords (pc : Int64) : Nat → List Operand → Except Failure (List Int64)
  | _, [] => .ok []
  | count, o :: os =>
    match o.kind, o.value with
    | .address, some v => do
      let n ← v.intValue env
      let rest ← extraWords pc (count + 1) os
      .ok ((if o.relative then n - (pc + Int64.ofNat (2 * (count + 1) + 2)) else n) :: rest)
    | _, _ => extraWords pc count os

def encode (i : Instruction) (os : List Operand) (pc : Int64) (pos : Position) :
    Except Failure (List Int64) :=
  if os.length ≠ i.kind.operandCount then
    .error ((Problem.operandCount i.name i.kind.operandCount os.length).failure pos)
  else do
    let first ← firstWord env i os pc pos
    let rest ← extraWords env pc 0 os
    .ok (first :: rest)

def putInstruction (s : State) (h : Header) (os : List Operand) : Except Failure State :=
  match Instruction.ofName? h.mnemonic with
  | none => .error ((Problem.unknownCommand h.mnemonic).failure h.position)
  | some i => do
    let p ← s.pc
    let words ← encode env i os p h.position
    s.putWords h.position words

/-- What an operation does. -/
def perform (fs : FileSystem) (atOnce : Bool) (h : Header) (o : Operation) (s : State) :
    Except Failure State :=
  let pos := h.position
  match o with
  | .nothing => .ok s
  | .thisMachine => .ok s
  | .decimalNumbers => .ok s
  | .endOfSource => .ok s
  | .includeFile _ => .ok s
  | .makeArtifact _ => .ok s
  | .koi8r => .ok { s with koi8r := true }
  | .otherMachine => .error (Problem.otherMachine.failure pos)
  | .dialect name =>
    if name ∈ dialects then .ok s else .error ((Problem.unknownDialect name).failure pos)
  | .instruction os => putInstruction env s h os
  | .link v => s.moveTo atOnce (v.intValue env)
  | .bytes vs => do s.putBytes pos (← values env vs)
  | .words vs => do s.putWords pos (← values env vs)
  | .reserveBytes v => do s.putZeros pos (← v.intValue env)
  | .reserveWords v => do s.putZeros pos ((← v.intValue env) * 2)
  | .even => s.putPadding pos 2
  | .align v => do s.putPadding pos (← v.intValue env)
  | .ascii text => s.putText pos text []
  | .asciz text => s.putText pos text [0]
  | .insertFile name => s.putFile fs pos name
  | .equate name v => do .ok (s.meetEquate name (← v.intValue env))

def rounds (v : Lazy) : Except Failure Nat := do
  let n ← v.intValue env
  if n < 0 then .error (.fault (.negativeCount n)) else .ok n.toNatClampNeg

/-- The assembler with the values of all symbols. With `atOnce`, also the address of a link
directive that nothing uses must have a value. -/
def eager (fs : FileSystem) (atOnce : Bool) : Backend State where
  label _ name := Attempt.update (State.meetLabel name)
  operation h o := Attempt.update (perform env fs atOnce h o)
  count _ v := liftM (rounds env v)
  openFiles := do
    let s ← get
    pure s.files
  enter file s := { s with files := file :: s.files }
  leave s := { s with files := s.files.tail }

end Values

end Eleven.Assembly.Eager

namespace Eleven.Assembly

open Eleven.Machine (Instruction)
open Eleven.Source (Operand)

section Instructions

variable {env : Env} {i : Instruction} {os : List Operand} {pc : Lazy} {p : Int64}
  {pos : Position}

theorem intValue_firstWord {w : Lazy} (hp : pc.intValue env = .ok p)
    (h : firstWord i os pc pos = .ok w) :
    w.intValue env = Eager.firstWord env i os p pos := by
  unfold firstWord at h
  split at h
  case h_1 hk =>
    cases h
    simp only [Eager.firstWord, hk]
    rfl
  case h_2 o hk =>
    obtain ⟨⟨⟩, ho, h⟩ := bind_eq_ok.mp h
    cases h
    simp only [Eager.firstWord, hk, ho, ok_bind]
    rfl
  case h_3 o d hk =>
    obtain ⟨⟨⟩, ho, h⟩ := bind_eq_ok.mp h
    obtain ⟨⟨⟩, hd, h⟩ := bind_eq_ok.mp h
    cases h
    simp only [Eager.firstWord, hk, ho, hd, ok_bind]
    rfl
  case h_4 r d hk =>
    obtain ⟨⟨⟩, hr, h⟩ := bind_eq_ok.mp h
    obtain ⟨⟨⟩, hd, h⟩ := bind_eq_ok.mp h
    cases h
    simp only [Eager.firstWord, hk, hr, hd, ok_bind]
    rfl
  case h_5 o r hk =>
    obtain ⟨⟨⟩, ho, h⟩ := bind_eq_ok.mp h
    obtain ⟨⟨⟩, hr, h⟩ := bind_eq_ok.mp h
    cases h
    simp only [Eager.firstWord, hk, ho, hr, ok_bind]
    rfl
  case h_6 r hk =>
    obtain ⟨⟨⟩, hr, h⟩ := bind_eq_ok.mp h
    cases h
    simp only [Eager.firstWord, hk, hr, ok_bind]
    rfl
  case h_7 o hk =>
    obtain ⟨v, hv, h⟩ := bind_eq_ok.mp h
    cases h
    simp only [Eager.firstWord, hk, Eager.operandValue, hv, ok_bind, Lazy.intValue_mapInt]
  case h_8 o hk =>
    obtain ⟨v, hv, h⟩ := bind_eq_ok.mp h
    cases h
    simp only [Eager.firstWord, hk, Eager.operandValue, hv, ok_bind, Lazy.intValue_mapInt,
      Lazy.intValue_sub, Lazy.intValue_addInt, hp, bind_assoc]
  case h_9 r o hk =>
    obtain ⟨⟨⟩, hr, h⟩ := bind_eq_ok.mp h
    obtain ⟨v, hv, h⟩ := bind_eq_ok.mp h
    cases h
    simp only [Eager.firstWord, hk, Eager.operandValue, hr, hv, ok_bind, Lazy.intValue_mapInt,
      Lazy.intValue_sub, Lazy.intValue_addInt, hp, bind_assoc]
  case h_10 => cases h

theorem values_extraWords (hp : pc.intValue env = .ok p) (count : Nat) (os : List Operand) :
    Eager.values env (extraWords pc count os) = Eager.extraWords env p count os := by
  induction os generalizing count with
  | nil => rfl
  | cons o os ih =>
    have hword : ∀ v : Lazy, (if o.relative then
        v.sub (pc.addInt (Int64.ofNat (2 * (count + 1) + 2))) else v).intValue env =
        (v.intValue env >>= fun n => .ok (if o.relative then
          n - (p + Int64.ofNat (2 * (count + 1) + 2)) else n)) := by
      intro v
      cases o.relative with
      | false =>
        simp only [Bool.false_eq_true, if_false]
        exact (bind_pure (v.intValue env)).symm
      | true => simp only [if_true, Lazy.intValue_sub, Lazy.intValue_addInt, hp, ok_bind]
    cases hk : o.kind <;> cases hv : o.value <;>
      simp only [extraWords, Eager.extraWords, hk, hv, ih, Eager.values, hword, bind_assoc, ok_bind]

/-- Encoding at an integer is what the words of an instruction come to. -/
theorem values_encode {words : List Lazy} (hp : pc.intValue env = .ok p)
    (h : encode i os pc pos = .ok words) :
    Eager.values env words = Eager.encode env i os p pos := by
  unfold encode at h
  split_ifs at h with hlen
  obtain ⟨w, hw, h⟩ := bind_eq_ok.mp h
  cases h
  rw [Eager.values, Eager.encode, if_neg hlen, intValue_firstWord hp hw, values_extraWords hp]

end Instructions

section Padding

variable {env : Env} {pc n : Lazy} {p : Int64}

theorem intValue_checkedModulus (v : Lazy) (pos : Position) :
    (checkedModulus v pos).intValue env = (v.intValue env >>= alignmentCheck pos) := by
  unfold checkedModulus
  split
  · rename_i c hc
    obtain rfl := Lazy.intConstant?_eq_some hc
    split_ifs with hpos
    · have hle : ¬ c ≤ 0 := Int64.not_le.mpr hpos
      rw [Lazy.intValue_int, ok_bind, alignmentCheck, if_neg hle]
    · exact Lazy.intValue_mapInt env _ _
  · exact Lazy.intValue_mapInt env _ _

/-- Repeated zeros are that many zeros. -/
theorem repeatPattern_zero {k : Int64} {d : Datum} (h : repeatPattern k [0] = .ok d) :
    d = .list (List.replicate k.toNatClampNeg 0) := by
  dsimp only [repeatPattern] at h
  split_ifs at h
  cases h
  rw [List.flatten_replicate_singleton]

theorem intValue_mod_of_nonneg (hp : pc.intValue env = .ok p) (hlow : 0 ≤ p.toInt) {r : Int64}
    (h : (pc.mod n).intValue env = .ok r) : ∃ k, n.intValue env = .ok k ∧ r = p % k := by
  rw [Lazy.mod, Lazy.intValue, Lazy.value_binary, hp, ok_bind, bind_assoc] at h
  obtain ⟨k, hk, h⟩ := bind_eq_ok.mp h
  have hrem : ¬ p % k < 0 := by
    rw [Int64.lt_iff_toInt_lt, Int64.toInt_mod]
    exact Int.not_lt.mpr (Int.tmod_nonneg _ hlow)
  refine ⟨k, hk, ?_⟩
  obtain ⟨d, hd, hr⟩ := bind_eq_ok.mp h
  unfold BinaryOp.apply at hd
  simp only [hrem, false_and, if_false] at hd
  split_ifs at hd
  cases hd
  exact (Except.ok.inj hr).symm

/-- Padding comes to zeros up to the next multiple, whether or not it was known early. -/
theorem value_padding {d : Datum} (hp : pc.intValue env = .ok p) (hlow : 0 ≤ p.toInt)
    (hd : (padding pc n).value env = .ok d) :
    ∃ k, n.intValue env = .ok k ∧ d = .list (knownPadding p k) := by
  have hlazy : (lazyPadding pc n).value env = .ok d →
      ∃ k, n.intValue env = .ok k ∧ d = .list (knownPadding p k) := by
    intro h
    rw [lazyPadding, Lazy.value_select, Lazy.equal, Lazy.value_binary] at h
    obtain ⟨dc, hc, h⟩ := bind_eq_ok.mp h
    obtain ⟨r, hr, hc⟩ := bind_eq_ok.mp hc
    obtain ⟨k, hk, rfl⟩ := intValue_mod_of_nonneg hp hlow hr
    cases hc
    refine ⟨k, hk, ?_⟩
    rw [Datum.expectBool, ok_bind] at h
    unfold knownPadding
    by_cases hz : p % k = 0
    · simp only [hz, BEq.rfl, if_true] at h
      cases h
      simp [hz]
    · have hz' : (p % k == 0) = false := by simpa using hz
      simp only [hz', Bool.false_eq_true, if_false] at h
      obtain ⟨d', hd', h⟩ := bind_eq_ok.mp h
      rw [Lazy.value_repeated, Lazy.intValue_sub, hk, ok_bind, hr, ok_bind, ok_bind] at hd'
      rw [if_neg hz]
      split_ifs at hd' with hneg
      obtain rfl := repeatPattern_zero hd'
      exact (Except.ok.inj h).symm
  unfold padding at hd
  split at hd
  · rename_i p' k hpc hn
    obtain rfl := Lazy.intConstant?_eq_some hpc
    obtain rfl := Lazy.intConstant?_eq_some hn
    cases hp
    exact ⟨k, rfl, (Except.ok.inj hd).symm⟩
  · exact hlazy hd

end Padding

end Eleven.Assembly

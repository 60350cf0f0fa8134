import Eleven.Proofs.Assembly.Calls
import Eleven.Proofs.Assembly.Stores
import Eleven.Proofs.Failure.Raising

/-! The stores that a session has asked for are stores of bytes, whatever its symbols come to. So the
linker never meets a datum that is no bytes, nor an integer that is no byte. -/
namespace Eleven

namespace Assembly

open Eleven.Files (FileSystem)
open Eleven.Machine (unsignedWord)
open Eleven.Source (Header Operation Operand)

/-- One byte, or a list of bytes. -/
def IsBytes : Datum → Prop
  | .int n => IsByte n
  | .list xs => ∀ x ∈ xs, IsByte x
  | _ => False

/-- Whatever the value comes to, it is bytes, however symbols are looked up. -/
def YieldsBytes (v : Lazy) : Prop :=
  ∀ (σ : Type) (look : String → Attempt σ Datum), Returns IsBytes (v.eval look)

section Values

variable {v : Lazy}

/-- A function of integers is applied to integers, and gives integers. -/
theorem returns_mapInt {σ : Type} {look : String → Attempt σ Datum} {P Q : Int64 → Prop}
    {g : Int64 → Except Failure Int64}
    (hv : Returns (fun d => ∀ n, d = .int n → P n) (v.eval look))
    (hg : ∀ n m, P n → g n = .ok m → Q m) :
    Returns (fun d => ∃ m, d = .int m ∧ Q m) ((v.mapInt g).eval look) := by
  unfold Lazy.mapInt Lazy.eval
  apply hv.bind
  intro d hd
  apply returns_lift
  intro d' h
  obtain ⟨n, hn, h⟩ := bind_eq_ok.mp h
  obtain ⟨m, hm, h⟩ := bind_eq_ok.mp h
  cases h
  cases d with
  | int k =>
    cases hn
    exact ⟨m, rfl, hg n m (hd n rfl) hm⟩
  | _ => cases hn

theorem yieldsBytes_of_int (h : ∀ (σ : Type) (look : String → Attempt σ Datum),
    Returns (fun d => ∃ m, d = .int m ∧ IsByte m) (v.eval look)) : YieldsBytes v := by
  intro σ look
  apply (h σ look).imp
  intro d hd
  obtain ⟨m, rfl, hm⟩ := hd
  exact hm

theorem isByte_of_storedByte {pos : Position} {n m : Int64} (h : Session.storedByte pos n = .ok m) :
    IsByte m := by
  unfold Session.storedByte at h
  split_ifs at h with hbig hsmall hneg
  · have hm : n + 256 = m := Except.ok.inj h
    rw [Int64.not_lt, Int64.le_iff_toInt_le] at hsmall
    rw [Int64.lt_iff_toInt_lt] at hneg
    change -256 ≤ n.toInt at hsmall
    change n.toInt < 0 at hneg
    have hint : m.toInt = n.toInt + 256 := by
      rw [← hm, Int64.toInt_add]
      change (n.toInt + 256).bmod (2 ^ 64) = _
      exact Int.bmod_eq_of_le (by omega) (by omega)
    rw [IsByte, hint]
    omega
  · have hm : n = m := Except.ok.inj h
    rw [ge_iff_le, Int64.not_le, Int64.lt_iff_toInt_lt] at hbig
    rw [Int64.not_lt, Int64.le_iff_toInt_le] at hneg
    change n.toInt < 256 at hbig
    change 0 ≤ n.toInt at hneg
    rw [IsByte, ← hm]
    omega

theorem yieldsBytes_byte (v : Lazy) (pos : Position) :
    YieldsBytes (v.mapInt (Session.storedByte pos)) := by
  apply yieldsBytes_of_int
  intro σ look
  apply returns_mapInt ((returns_true (v.eval look)).imp fun _ _ _ _ => trivial)
  intro n m _ hm
  exact isByte_of_storedByte hm

/-- A word is stored as sixteen bits, so each of its halves is a byte. -/
theorem returns_word {σ : Type} (look : String → Attempt σ Datum) (v : Lazy) (pos : Position) :
    Returns (fun d => ∃ m, d = .int m ∧ ∃ w, m = unsignedWord w)
      ((v.mapInt (Session.storedWord pos)).eval look) := by
  apply returns_mapInt ((returns_true (v.eval look)).imp fun _ _ _ _ => trivial)
  intro n m _ hm
  exact ⟨_, storedWord_eq_ok hm⟩

theorem yieldsBytes_half {half : Int64 → Except Failure Int64}
    (hhalf : ∀ w m, half (unsignedWord w) = .ok m → IsByte m) (v : Lazy) (pos : Position) :
    YieldsBytes ((v.mapInt (Session.storedWord pos)).mapInt half) := by
  apply yieldsBytes_of_int
  intro σ look
  have hword : Returns (fun d => ∀ n, d = .int n → ∃ w, n = unsignedWord w)
      ((v.mapInt (Session.storedWord pos)).eval look) := by
    apply (returns_word look v pos).imp
    intro d hd n hn
    obtain ⟨m, rfl, hm⟩ := hd
    cases hn
    exact hm
  apply returns_mapInt hword
  intro n m hn hm
  obtain ⟨w, rfl⟩ := hn
  exact hhalf w m hm

theorem yieldsBytes_low (v : Lazy) (pos : Position) :
    YieldsBytes ((v.mapInt (Session.storedWord pos)).mapInt Session.lowByte) := by
  apply yieldsBytes_half
  intro w m hm
  cases hm
  rw [Machine.unsignedWord_and_255]
  exact isByte_ofNat _

theorem yieldsBytes_high (v : Lazy) (pos : Position) :
    YieldsBytes ((v.mapInt (Session.storedWord pos)).mapInt Session.highByte) := by
  -- only of a word is the high part a byte: the shift alone cuts nothing off
  apply yieldsBytes_half
  intro w m hm
  cases hm
  rw [Machine.unsignedWord_shiftRight_8]
  exact isByte_ofNat _

theorem yieldsBytes_list {xs : List Int64} (h : ∀ x ∈ xs, IsByte x) : YieldsBytes (.list xs) := by
  intro σ look
  exact returns_pure h

theorem isBytes_repeatPattern {n : Int64} {p : List Int64} (hp : ∀ x ∈ p, IsByte x) {d : Datum}
    (h : repeatPattern n p = .ok d) : IsBytes d := by
  unfold repeatPattern at h
  dsimp only at h
  split at h
  · cases h
  · cases h
    intro x hx
    obtain ⟨l, hl, hx⟩ := List.mem_flatten.mp hx
    rw [List.eq_of_mem_replicate hl] at hx
    exact hp x hx

theorem isByte_of_pattern {d : Datum} (hd : IsBytes d) {p : List Int64} (h : d.pattern = .ok p) :
    ∀ x ∈ p, IsByte x := by
  cases d with
  | int n =>
    cases h
    exact List.forall_mem_singleton.mpr hd
  | list xs =>
    cases h
    exact hd
  | _ => cases h

theorem yieldsBytes_repeated (count : Lazy) {elem : Lazy} (he : YieldsBytes elem) :
    YieldsBytes (.repeated count elem) := by
  intro σ look
  have hpattern : ∀ n, Returns IsBytes (do
      let d ← elem.eval look
      let p ← d.pattern
      liftM (repeatPattern n p) : Attempt σ Datum) := by
    intro n
    apply (he σ look).bind
    intro d hd
    have hlift : Returns (fun p => ∀ x ∈ p, IsByte x) (liftM d.pattern : Attempt σ (List Int64)) :=
      returns_lift fun p hp => isByte_of_pattern hd hp
    apply hlift.bind
    intro p hp
    exact returns_lift fun d' hd' => isBytes_repeatPattern hp hd'
  unfold Lazy.eval
  apply (returns_true _).bind
  intro dn _
  apply (returns_true _).bind
  intro n _
  by_cases hn : n < 0
  · simp only [hn, if_true]
    exact (returns_true _).bind fun _ _ => hpattern n
  · simp only [hn, if_false]
    exact hpattern n

theorem returns_expect {σ : Type} {d : Datum} (hd : IsBytes d) (k : Kind) :
    Returns IsBytes (liftM (d.expect k) : Attempt σ Datum) := by
  apply returns_lift
  intro d' h
  unfold Datum.expect at h
  split at h
  · cases h
    exact hd
  · cases h

theorem yieldsBytes_select (cond : Lazy) {a b : Lazy} (ha : YieldsBytes a) (hb : YieldsBytes b) :
    YieldsBytes (.select cond a b) := by
  intro σ look
  unfold Lazy.eval
  apply (returns_true _).bind
  intro dc _
  apply (returns_true _).bind
  intro c _
  cases c with
  | true => exact (ha σ look).bind fun d hd => returns_expect hd a.kind
  | false => exact (hb σ look).bind fun d hd => returns_expect hd b.kind

theorem isByte_zero : IsByte 0 := by decide

theorem yieldsBytes_zeros (count : Lazy) : YieldsBytes (.repeated count (.int 0)) := by
  apply yieldsBytes_repeated
  intro σ look
  exact returns_pure isByte_zero

theorem yieldsBytes_padding (pc n : Lazy) : YieldsBytes (padding pc n) := by
  unfold padding
  split
  · next p k _ _ =>
    apply yieldsBytes_list
    intro x hx
    unfold knownPadding at hx
    split at hx
    · cases hx
    · rw [List.eq_of_mem_replicate hx]
      exact isByte_zero
  · have hnone : YieldsBytes (.list []) := yieldsBytes_list (by simp)
    exact yieldsBytes_select _ hnone (yieldsBytes_zeros _)

end Values

/-- Every store that the session has asked for is one of bytes. -/
def Session.LogsBytes (s : Session) : Prop := ∀ w ∈ s.pending, YieldsBytes w.data

theorem Session.LogsBytes.writes {s : Session} (hs : s.LogsBytes) :
    ∀ w ∈ s.writes, YieldsBytes w.data := fun w hw => hs w (List.mem_reverse.mp hw)

section Operations

variable {fs : FileSystem} {s : Session} (hs : s.LogsBytes) {pos : Position}
include hs

theorem Session.LogsBytes.writeByte (v : Lazy) (pos : Position) :
    (s.writeByte v pos).LogsBytes :=
  List.forall_mem_cons.mpr ⟨yieldsBytes_byte v pos, hs⟩

theorem Session.LogsBytes.writeWord (v : Lazy) (pos : Position) :
    (s.writeWord v pos).LogsBytes :=
  List.forall_mem_cons.mpr ⟨yieldsBytes_high v pos,
    List.forall_mem_cons.mpr ⟨yieldsBytes_low v pos, hs⟩⟩

theorem Session.LogsBytes.writeList {v : Lazy} (hv : YieldsBytes v) (pos : Position) :
    (s.writeList v pos).LogsBytes :=
  List.forall_mem_cons.mpr ⟨hv, hs⟩

theorem Session.LogsBytes.writeBytes (vs : List Lazy) (pos : Position) :
    (s.writeBytes vs pos).LogsBytes :=
  List.foldlRecOn vs _ hs fun _ hu v _ => hu.writeByte v pos

theorem Session.LogsBytes.writeWords (vs : List Lazy) (pos : Position) :
    (s.writeWords vs pos).LogsBytes :=
  List.foldlRecOn vs _ hs fun _ hu v _ => hu.writeWord v pos

omit hs in
theorem isByte_of_latinBytes {cs : List Char} {bs : List Int64} (h : latinBytes cs = .ok bs) :
    ∀ b ∈ bs, IsByte b := by
  induction cs generalizing bs with
  | nil =>
    cases h
    simp
  | cons c cs ih =>
    unfold latinBytes at h
    split at h
    · cases h
    · next hc =>
      obtain ⟨bs', hbs', h⟩ := bind_eq_ok.mp h
      cases h
      have hbyte : IsByte (Int64.ofNat c.toNat) := by
        rw [IsByte, Int64.toInt_ofNat_of_lt (by omega)]
        omega
      exact List.forall_mem_cons.mpr ⟨hbyte, ih hbs'⟩

omit hs in
theorem isByte_of_koi8rBytes? {cs : List Char} {bs : List Int64} (h : koi8rBytes? cs = some bs) :
    ∀ b ∈ bs, IsByte b := by
  induction cs generalizing bs with
  | nil =>
    cases h
    simp
  | cons c cs ih =>
    obtain ⟨b, hb, h⟩ := Option.bind_eq_some_iff.mp h
    obtain ⟨bs', hbs', h⟩ := Option.bind_eq_some_iff.mp h
    cases h
    exact List.forall_mem_cons.mpr ⟨isByte_ofNat b, ih hbs'⟩

omit hs in
/-- A text is stored as bytes in either encoding. -/
theorem isByte_of_textBytes {koi8r : Bool} {text : String} {bs : List Int64}
    (h : textBytes koi8r text = .ok bs) : ∀ b ∈ bs, IsByte b := by
  unfold textBytes at h
  split at h
  · split at h
    · next hbs =>
      cases h
      exact isByte_of_koi8rBytes? hbs
    · cases h
  · exact isByte_of_latinBytes h

theorem logsBytes_of_writeText {text : String} {ending : List Int64}
    (hending : ∀ b ∈ ending, IsByte b) {u : Session} (h : writeText s pos text ending = .ok u) :
    u.LogsBytes := by
  unfold writeText at h
  split at h
  · next bs hbs =>
    cases h
    have hall : ∀ b ∈ bs ++ ending, IsByte b :=
      List.forall_mem_append.mpr ⟨isByte_of_textBytes hbs, hending⟩
    exact hs.writeList (yieldsBytes_list hall) pos
  · cases h

theorem logsBytes_of_insertFile {name : String} {u : Session}
    (h : insertFile fs s pos name = .ok u) : u.LogsBytes := by
  unfold insertFile at h
  dsimp only at h
  split at h
  · next bytes _ =>
    cases h
    have hall : ∀ b ∈ bytes.map fun b => Int64.ofNat b.toNat, IsByte b :=
      List.forall_mem_map.mpr fun b _ => isByte_ofNat b
    exact hs.writeList (yieldsBytes_list hall) pos
  · cases h

theorem logsBytes_of_writeInstruction {h : Header} {os : List Operand} {u : Session}
    (hwrite : writeInstruction s h os = .ok u) : u.LogsBytes := by
  unfold writeInstruction at hwrite
  split at hwrite
  · cases hwrite
  · obtain ⟨words, -, hwords⟩ := bind_eq_ok.mp hwrite
    cases hwords
    exact hs.writeWords words h.position

theorem logsBytes_of_define {name : String} {v : Lazy} {u : Session}
    (h : s.define name v pos = .ok u) : u.LogsBytes := by
  obtain ⟨t, -, ht⟩ := bind_eq_ok.mp h
  cases ht
  exact hs

/-- What an operation stores are bytes, one case per operation. -/
theorem logsBytes_of_apply {h : Header} {o : Operation} {u : Session}
    (happly : apply fs h o s = .ok u) : u.LogsBytes := by
  cases o with
  | instruction os => exact logsBytes_of_writeInstruction hs happly
  | bytes vs =>
    cases happly
    exact hs.writeBytes vs h.position
  | words vs =>
    cases happly
    exact hs.writeWords vs h.position
  | reserveBytes n =>
    cases happly
    exact hs.writeList (yieldsBytes_zeros n) h.position
  | reserveWords n =>
    cases happly
    exact hs.writeList (yieldsBytes_zeros _) h.position
  | even =>
    cases happly
    exact hs.writeList (yieldsBytes_padding _ _) h.position
  | align v =>
    cases happly
    exact hs.writeList (yieldsBytes_padding _ _) h.position
  | ascii text => exact logsBytes_of_writeText hs (by simp) happly
  | asciz text =>
    exact logsBytes_of_writeText hs (List.forall_mem_singleton.mpr isByte_zero) happly
  | insertFile name => exact logsBytes_of_insertFile hs happly
  | equate name v => exact logsBytes_of_define hs happly
  | dialect name =>
    by_cases hname : name ∈ dialects
    · simp only [apply, hname, if_true] at happly
      cases happly
      exact hs
    · simp only [apply, hname, if_false] at happly
      cases happly
  | otherMachine => cases happly
  | _ =>
    cases happly
    exact hs

end Operations

section Histories

variable {α : Type}

/-- The computation asks for stores of bytes only. -/
abbrev KeepsLog (x : Attempt Session α) : Prop := Raises Session.LogsBytes (fun _ => True) x

theorem keepsLog_lift (e : Except Failure α) : KeepsLog (liftM e) := raises_lift (ensures_true e)

theorem keepsLog_update {f : Session → Except Failure Session}
    (h : ∀ s u, s.LogsBytes → f s = .ok u → u.LogsBytes) : KeepsLog (Attempt.update f) := by
  apply raises_update
  intro s hs
  cases hf : f s with
  | ok u => exact h s u hs hf
  | error e => trivial

theorem keepsLog_onSymbols (act : Attempt SymbolTable α) : KeepsLog (Session.onSymbols act) :=
  fun _ hs => ⟨hs, ensures_true _⟩

theorem keepsLog_repeatCount (pos : Position) (count : Lazy) : KeepsLog (repeatCount pos count) := by
  have hcount : KeepsLog (do
      let n ← Session.onSymbols (count.resolveInt SymbolTable.lookup)
      if n < 0 then throw (.fault (.negativeCount n)) else pure n.toNatClampNeg) := by
    apply (keepsLog_onSymbols _).bind
    intro n
    split
    · exact raises_throw trivial
    · exact raises_pure _
  exact hcount.mapFailure fun _ _ => trivial

/-- Whatever an assembler is given, it asks for stores of bytes only. -/
theorem related_keepsLog (fs : FileSystem) :
    Backend.Related (fun x _ => KeepsLog x) (deferred fs) (deferred fs) where
  lift e := keepsLog_lift e
  bind hx hf := hx.bind hf
  label _ _ := keepsLog_update fun _ _ hs h => logsBytes_of_define hs h
  operation _ _ := keepsLog_update fun _ _ hs h => logsBytes_of_apply hs h
  count := keepsLog_repeatCount
  openFiles := fun _ hs => ⟨hs, trivial⟩
  inFile file x _ hx := by
    intro s hs
    rw [Backend.run_inFile]
    exact hx (enterFile file s) hs

theorem keepsLog_addSource (fs : FileSystem) (name text : String) :
    KeepsLog (Session.addSource fs name text) := by
  rw [← addSource_deferred]
  exact (related_keepsLog fs).addSource fs name text

theorem keepsLog_addFile (fs : FileSystem) (path : String) :
    KeepsLog (Session.addFile fs path) := by
  unfold Session.addFile
  cases fs.read path with
  | error f => exact raises_throw trivial
  | ok bytes => exact keepsLog_addSource fs path _

theorem keepsLog_linkImage : KeepsLog Session.linkImage := by
  have hget : KeepsLog (get : Attempt Session Session) := fun _ hs => ⟨hs, trivial⟩
  unfold Session.linkImage
  apply hget.bind
  intro s
  apply (keepsLog_onSymbols _).bind
  intro _
  apply (keepsLog_onSymbols _).bind
  intro memory
  apply (keepsLog_onSymbols _).bind
  intro link
  apply hget.bind
  intro u
  exact raises_pure _

/-- One call: it may fail, and what it has stored until then are bytes. -/
theorem logsBytes_perform (fs : FileSystem) {s : Session} (hs : s.LogsBytes) (c : Call) :
    (c.perform fs s).2.LogsBytes := by
  cases c with
  | setLink address => exact hs
  | setProject project => exact hs
  | addFile path => exact (keepsLog_addFile fs path s hs).1
  | addSource name text => exact (keepsLog_addSource fs name text s hs).1
  | define name v pos =>
    have hdefine : KeepsLog (Attempt.update (Session.define name v pos)) :=
      keepsLog_update fun _ _ hs h => logsBytes_of_define hs h
    exact (hdefine s hs).1
  | link => exact (keepsLog_linkImage s hs).1
  | lookup name => exact hs
  | resolveAll => exact hs

/-- A new session after calls, each with the file system of its time. -/
def Session.afterCalls (calls : List (FileSystem × Call)) : Session :=
  calls.foldl (fun s c => (c.2.perform c.1 s).2) .new

theorem logsBytes_afterCalls (calls : List (FileSystem × Call)) :
    (Session.afterCalls calls).LogsBytes := by
  have hnew : Session.new.LogsBytes := by
    intro w hw
    cases hw
  exact List.foldlRecOn calls _ hnew fun s hs c _ => logsBytes_perform c.1 hs c.2

end Histories

/-- What a linker does with a datum that is no bytes, and with an integer that is no byte. -/
structure Refusals where
  notBytes : Datum → Except Failure (List Int64)
  notByte : Position → Int64 → Except Failure (Array UInt8)

namespace Refusals

variable (refuse : Refusals)

def payload : Datum → Except Failure (List Int64)
  | .int n => .ok [n]
  | .list xs => .ok xs
  | d => refuse.notBytes d

def storeFrom (pos : Position) : Array UInt8 → Nat → List Int64 → Except Failure (Array UInt8)
  | memory, _, [] => .ok memory
  | memory, address, b :: bs =>
    if b < 0 ∨ b > 0xFF then refuse.notByte pos b
    else if address < memory.size then
      storeFrom pos (memory.setIfInBounds address (UInt8.ofNat b.toNatClampNeg)) (address + 1) bs
    else .error (.fault (.storeOutside (Int64.ofNat address) memory.size))

def store (pos : Position) (memory : Array UInt8) (address : Int64) (bytes : List Int64) :
    Except Failure (Array UInt8) :=
  let last := address + Int64.ofNat bytes.length
  if address < 0 ∨ last > Int64.ofNat Machine.addressSpace then
    .error ((Problem.addressOutside address).failure pos)
  else refuse.storeFrom pos (growTo last.toNatClampNeg memory) address.toNatClampNeg bytes

def resolveWrite (w : Write) : Attempt SymbolTable (List Int64 × Int64) :=
  Attempt.mapFailure (Failure.annotate w.position) do
    let d ← w.data.eval SymbolTable.lookup
    let bytes ← refuse.payload d
    let address ← w.address.resolveInt SymbolTable.lookup
    pure (bytes, address)

def storeAll : Array UInt8 → List Write → Attempt SymbolTable (Array UInt8)
  | memory, [] => pure memory
  | memory, w :: ws => do
    let (bytes, address) ← refuse.resolveWrite w
    let memory ← refuse.store w.position memory address bytes
    storeAll memory ws

/-- Linking with these refusals in place of the usual ones. -/
def linkImage : Attempt Session Image := do
  let s ← get
  Session.onSymbols SymbolTable.resolveAll
  let memory ← Session.onSymbols (refuse.storeAll #[] s.writes)
  let link ← Session.onSymbols (resolveLink s.link)
  let s ← get
  pure ⟨s.build, memory.toList.drop link.toNatClampNeg, link, s.symbols.values⟩

/-- What the linker of this library does. -/
def usual : Refusals where
  notBytes d := .error (.fault (.notBytes d))
  notByte pos b := .error ((Problem.byteTooBig b).failure pos)

section Usual

theorem payload_usual (d : Datum) : usual.payload d = Assembly.payload d := by
  cases d <;> rfl

theorem storeFrom_usual (pos : Position) (bs : List Int64) (memory : Array UInt8) (n : Nat) :
    usual.storeFrom pos memory n bs = Assembly.storeFrom pos memory n bs := by
  induction bs generalizing memory n with
  | nil => rfl
  | cons b bs ih =>
    rw [storeFrom, Assembly.storeFrom, ih]
    rfl

theorem resolveWrite_usual (w : Write) : usual.resolveWrite w = Assembly.resolveWrite w := by
  unfold resolveWrite Assembly.resolveWrite
  simp only [payload_usual]

theorem storeAll_usual (ws : List Write) (memory : Array UInt8) :
    usual.storeAll memory ws = Assembly.storeAll memory ws := by
  induction ws generalizing memory with
  | nil => rfl
  | cons w ws ih =>
    simp only [storeAll, Assembly.storeAll, resolveWrite_usual, store, Assembly.store,
      storeFrom_usual, ih]

theorem linkImage_usual : usual.linkImage = Session.linkImage := by
  unfold linkImage Session.linkImage
  simp only [storeAll_usual]

end Usual

theorem payload_of_isBytes {d : Datum} (hd : IsBytes d) :
    refuse.payload d = Assembly.payload d := by
  cases d with
  | int n => rfl
  | list xs => rfl
  | _ => exact hd.elim

theorem storeFrom_of_isByte (pos : Position) {bs : List Int64} (hbs : ∀ b ∈ bs, IsByte b)
    (memory : Array UInt8) (n : Nat) :
    refuse.storeFrom pos memory n bs = Assembly.storeFrom pos memory n bs := by
  induction bs generalizing memory n with
  | nil => rfl
  | cons b bs ih =>
    rw [List.forall_mem_cons] at hbs
    have hb := isByte_iff.mp hbs.1
    rw [storeFrom, Assembly.storeFrom, if_neg hb, if_neg hb, ih hbs.2]

theorem store_of_isByte (pos : Position) (memory : Array UInt8) (address : Int64)
    {bs : List Int64} (hbs : ∀ b ∈ bs, IsByte b) :
    refuse.store pos memory address bs = Assembly.store pos memory address bs := by
  unfold store Assembly.store
  dsimp only
  rw [storeFrom_of_isByte refuse pos hbs]

theorem isByte_of_payload {d : Datum} (hd : IsBytes d) {bs : List Int64}
    (h : Assembly.payload d = .ok bs) : ∀ b ∈ bs, IsByte b := by
  cases d with
  | int n =>
    cases h
    exact List.forall_mem_singleton.mpr hd
  | list xs =>
    cases h
    exact hd
  | _ => cases h

variable {w : Write} (hw : YieldsBytes w.data)
include hw

/-- A store of bytes is resolved to bytes. -/
theorem returns_resolveWrite :
    Returns (fun e => ∀ b ∈ e.1, IsByte b) (Assembly.resolveWrite w) := by
  have hdata := hw SymbolTable SymbolTable.lookup
  apply Returns.mapFailure
  apply hdata.bind
  intro d hd
  have hbytes : Returns (fun bs => ∀ b ∈ bs, IsByte b)
      (liftM (Assembly.payload d) : Attempt SymbolTable (List Int64)) :=
    returns_lift fun bs h => isByte_of_payload hd h
  apply hbytes.bind
  intro bs hbs
  apply (returns_true _).bind
  intro address _
  exact returns_pure hbs

theorem resolveWrite_eq : refuse.resolveWrite w = Assembly.resolveWrite w := by
  unfold resolveWrite Assembly.resolveWrite
  have hdata := hw SymbolTable SymbolTable.lookup
  apply congrArg (Attempt.mapFailure _)
  apply hdata.bind_congr
  intro d hd
  rw [payload_of_isBytes refuse hd]

omit hw in
theorem storeAll_eq {ws : List Write} (hws : ∀ w ∈ ws, YieldsBytes w.data) (memory : Array UInt8) :
    refuse.storeAll memory ws = Assembly.storeAll memory ws := by
  induction ws generalizing memory with
  | nil => rfl
  | cons w ws ih =>
    rw [List.forall_mem_cons] at hws
    rw [storeAll, Assembly.storeAll, resolveWrite_eq refuse hws.1]
    -- what is stored next is what the resolved store gives, so its bytes are needed here
    apply (returns_resolveWrite hws.1).bind_congr
    intro e he
    dsimp only
    rw [store_of_isByte refuse w.position memory e.2 he]
    simp only [ih hws.2]

omit hw in
/-- Where all stores are of bytes a linker never comes to refuse one, so it does not matter how it
would. -/
theorem run_linkImage_eq {s : Session} (hs : s.LogsBytes) :
    refuse.linkImage.run s = Session.linkImage.run s := by
  rw [linkImage, Session.linkImage, Attempt.run_bind_ok (Attempt.run_get s),
    Attempt.run_bind_ok (Attempt.run_get s), storeAll_eq refuse hs.writes]

end Refusals

/-- Every store in the log of a session is one of bytes, after any calls, whatever files they read
and whatever symbols they define: however symbols are looked up, the data of a store fail or come to
a byte or a list of bytes. So a link never meets a datum that is no bytes, nor an integer that is no
byte: with any refusals in place of the usual ones it runs the same. -/
theorem log_holds_bytes (calls : List (FileSystem × Call)) :
    (∀ w ∈ (Session.afterCalls calls).writes, YieldsBytes w.data) ∧
      Refusals.usual.linkImage = Session.linkImage ∧
      ∀ refuse : Refusals, refuse.linkImage.run (Session.afterCalls calls) =
        Session.linkImage.run (Session.afterCalls calls) := by
  have hs := logsBytes_afterCalls calls
  exact ⟨hs.writes, Refusals.linkImage_usual, fun refuse => refuse.run_linkImage_eq hs⟩

end Assembly

end Eleven

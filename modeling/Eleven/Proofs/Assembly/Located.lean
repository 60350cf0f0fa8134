import Eleven.Proofs.Assembly.Linking
import Eleven.Proofs.Source.Located

/-! What a session holds comes from commands that have a place, so its failures can be placed. -/
namespace Eleven.Assembly

open Eleven.Failure (Placed Placeable placeable_fault)
open Eleven.Files (FileSystem)
open Eleven.Machine (Instruction)
open Eleven.Source (Header Operation Operand Command)

/-- A definition at a position that satisfies `Q`, of a value that raises nothing else. -/
structure SymbolLocated (Q : Position → Prop) (y : Symbol) : Prop where
  position : Q y.position
  value : y.value.StepsRaise (Placeable Q)

structure Write.Located (Q : Position → Prop) (w : Write) : Prop where
  position : Q w.position
  address : w.address.StepsRaise (Placeable Q)
  data : w.data.StepsRaise (Placeable Q)

/-- All that a session holds stands at positions that satisfy `Q`, and raises nothing else. -/
structure Session.Located (Q : Position → Prop) (s : Session) : Prop where
  symbols : s.symbols.Holds (SymbolLocated Q)
  pending : ∀ w ∈ s.pending, w.Located Q
  pc : s.pc.StepsRaise (Placeable Q)
  link : s.link.StepsRaise (Placeable Q)

variable {Q : Position → Prop}

theorem located_new : Session.new.Located Q := by
  constructor
  · intro y hy
    cases hy
  · intro w hw
    cases hw
  · trivial
  · trivial

section Mono

variable {Q' : Position → Prop} (hQ : ∀ pos, Q pos → Q' pos)
include hQ

theorem stepsRaise_mono {v : Lazy} (h : v.StepsRaise (Placeable Q)) :
    v.StepsRaise (Placeable Q') := h.mono fun _ he => he.mono hQ

/-- What is at one of some places is at one of more. -/
theorem Session.Located.mono {s : Session} (h : s.Located Q) : s.Located Q' where
  symbols y hy := ⟨hQ _ (h.symbols y hy).position, stepsRaise_mono hQ (h.symbols y hy).value⟩
  pending w hw := ⟨hQ _ (h.pending w hw).position, stepsRaise_mono hQ (h.pending w hw).address,
    stepsRaise_mono hQ (h.pending w hw).data⟩
  pc := stepsRaise_mono hQ h.pc
  link := stepsRaise_mono hQ h.link

end Mono

section Checks

variable {pos : Position} (hpos : Q pos)
include hpos

theorem placeable_failure (p : Problem) : Placeable Q (p.failure pos) :=
  (p.placed_failure hpos).placeable

theorem ensures_storedByte (n : Int64) :
    Ensures (fun _ => True) (Placeable Q) (Session.storedByte pos n) := by
  unfold Session.storedByte
  split
  · exact placeable_failure hpos _
  · split
    · exact placeable_failure hpos _
    · split <;> trivial

theorem ensures_storedWord (n : Int64) :
    Ensures (fun _ => True) (Placeable Q) (Session.storedWord pos n) := by
  unfold Session.storedWord
  split
  · exact placeable_failure hpos _
  · split
    · exact placeable_failure hpos _
    · split <;> trivial

theorem ensures_alignmentCheck (n : Int64) :
    Ensures (fun _ => True) (Placeable Q) (alignmentCheck pos n) := by
  unfold alignmentCheck
  split
  · exact placeable_failure hpos _
  · trivial

theorem ensures_immediateWord (i : Instruction) (n : Int64) :
    Ensures (fun _ => True) (Placeable Q) (immediateWord i pos n) := by
  unfold immediateWord
  dsimp only
  split
  · exact placeable_failure hpos _
  · split
    · exact placeable_failure hpos _
    · split
      · exact placeable_failure hpos _
      · trivial

theorem ensures_branchWord (i : Instruction) (n : Int64) :
    Ensures (fun _ => True) (Placeable Q) (branchWord i pos n) := by
  unfold branchWord
  split
  · exact placeable_failure hpos _
  · split
    · exact placeable_failure hpos _
    · trivial

theorem ensures_sobWord (i : Instruction) (register n : Int64) :
    Ensures (fun _ => True) (Placeable Q) (sobWord i register pos n) := by
  unfold sobWord
  split
  · exact placeable_failure hpos _
  · split
    · exact placeable_failure hpos _
    · trivial

end Checks

section Writing

variable {s : Session} (hs : s.Located Q) {pos : Position} (hpos : Q pos) {v : Lazy}
include hs hpos

theorem Session.Located.writeByte (hv : v.StepsRaise (Placeable Q)) :
    (s.writeByte v pos).Located Q := by
  have hbyte := hv.mapInt placeable_fault (ensures_storedByte hpos)
  exact ⟨hs.symbols, List.forall_mem_cons.mpr ⟨⟨hpos, hs.pc, hbyte⟩, hs.pending⟩, hs.pc.addInt 1,
    hs.link⟩

theorem Session.Located.writeWord (hv : v.StepsRaise (Placeable Q)) :
    (s.writeWord v pos).Located Q := by
  have hword := hv.mapInt placeable_fault (ensures_storedWord hpos)
  have hlow := hword.mapInt placeable_fault (f := Session.lowByte) fun _ => trivial
  have hhigh := hword.mapInt placeable_fault (f := Session.highByte) fun _ => trivial
  exact ⟨hs.symbols, List.forall_mem_cons.mpr ⟨⟨hpos, hs.pc.addInt 1, hhigh⟩,
    List.forall_mem_cons.mpr ⟨⟨hpos, hs.pc, hlow⟩, hs.pending⟩⟩, hs.pc.addInt 2, hs.link⟩

theorem Session.Located.writeList (hv : v.StepsRaise (Placeable Q)) :
    (s.writeList v pos).Located Q :=
  ⟨hs.symbols, List.forall_mem_cons.mpr ⟨⟨hpos, hs.pc, hv⟩, hs.pending⟩,
    hs.pc.add (hv.length placeable_fault), hs.link⟩

theorem Session.Located.writeBytes {vs : List Lazy} (hvs : ∀ v ∈ vs, v.StepsRaise (Placeable Q)) :
    (s.writeBytes vs pos).Located Q :=
  List.foldlRecOn vs _ hs fun _ hu v hv => hu.writeByte hpos (hvs v hv)

theorem Session.Located.writeWords {vs : List Lazy} (hvs : ∀ v ∈ vs, v.StepsRaise (Placeable Q)) :
    (s.writeWords vs pos).Located Q :=
  List.foldlRecOn vs _ hs fun _ hu v hv => hu.writeWord hpos (hvs v hv)

theorem ensures_define (hv : v.StepsRaise (Placeable Q)) (name : String) :
    Ensures (Session.Located Q) (Placed Q) (s.define name v pos) := by
  unfold Session.define
  have hnew : SymbolLocated Q ⟨name, v, pos, .pending⟩ := ⟨hpos, hv⟩
  apply (hs.symbols.define hnew ((Problem.redefinition name).placed_failure hpos)).bind
  intro t ht
  exact ⟨ht, hs.pending, hs.pc, hs.link⟩

end Writing

section Encoding

variable {pos : Position} (hpos : Q pos) (i : Instruction) {pc : Lazy}
  (hpc : pc.StepsRaise (Placeable Q)) {os : List Operand}
  (hos : ∀ o ∈ os, o.StepsRaise (Placeable Q))

include hpos in
theorem ensures_requireAddress (o : Operand) :
    Ensures (fun _ => True) (Placed Q) (requireAddress i pos o) := by
  unfold requireAddress
  split
  · trivial
  · exact Problem.placed_failure hpos _

include hpos in
theorem ensures_requireRegister (o : Operand) :
    Ensures (fun _ => True) (Placed Q) (requireRegister i pos o) := by
  unfold requireRegister
  split
  · trivial
  · exact Problem.placed_failure hpos _

include hpos in
theorem ensures_requireExpression {o : Operand} (ho : o.StepsRaise (Placeable Q)) :
    Ensures (fun v => v.StepsRaise (Placeable Q)) (Placed Q) (requireExpression i pos o) := by
  unfold requireExpression
  split
  · next v _ hv => exact ho v hv
  · exact Problem.placed_failure hpos _

include hpos hpc hos in
theorem ensures_firstWord :
    Ensures (fun v => v.StepsRaise (Placeable Q)) (Placed Q) (firstWord i os pc pos) := by
  unfold firstWord
  split
  · trivial
  · exact (ensures_requireAddress hpos i _).bind fun _ _ => trivial
  · exact (ensures_requireAddress hpos i _).bind fun _ _ =>
      (ensures_requireAddress hpos i _).bind fun _ _ => trivial
  · exact (ensures_requireRegister hpos i _).bind fun _ _ =>
      (ensures_requireAddress hpos i _).bind fun _ _ => trivial
  · exact (ensures_requireAddress hpos i _).bind fun _ _ =>
      (ensures_requireRegister hpos i _).bind fun _ _ => trivial
  · exact (ensures_requireRegister hpos i _).bind fun _ _ => trivial
  · apply (ensures_requireExpression hpos i (hos _ (by simp))).bind
    intro v hv
    exact hv.mapInt placeable_fault (ensures_immediateWord hpos i)
  · apply (ensures_requireExpression hpos i (hos _ (by simp))).bind
    intro v hv
    exact (hv.sub (hpc.addInt 2)).mapInt placeable_fault (ensures_branchWord hpos i)
  · apply (ensures_requireRegister hpos i _).bind
    intro _ _
    apply (ensures_requireExpression hpos i (hos _ (by simp))).bind
    intro v hv
    exact ((hpc.addInt 2).sub hv).mapInt placeable_fault (ensures_sobWord hpos i _)
  · exact Problem.placed_failure hpos _

include hpc in
theorem stepsRaise_extraWords (count : Nat) {os : List Operand}
    (hos : ∀ o ∈ os, o.StepsRaise (Placeable Q)) :
    ∀ v ∈ extraWords pc count os, v.StepsRaise (Placeable Q) := by
  induction os generalizing count with
  | nil => simp [extraWords]
  | cons o os ih =>
    rw [List.forall_mem_cons] at hos
    unfold extraWords
    split
    · next v _ hv =>
      apply List.forall_mem_cons.mpr ⟨_, ih _ hos.2⟩
      split
      · exact (hos.1 v hv).sub (hpc.addInt _)
      · exact hos.1 v hv
    · exact ih _ hos.2

include hpos hpc hos in
theorem ensures_encode :
    Ensures (fun vs => ∀ v ∈ vs, v.StepsRaise (Placeable Q)) (Placed Q) (encode i os pc pos) := by
  unfold encode
  split
  · exact Problem.placed_failure hpos _
  · apply (ensures_firstWord hpos i hpc hos).bind
    intro first hfirst
    exact List.forall_mem_cons.mpr ⟨hfirst, stepsRaise_extraWords hpc 0 hos⟩

end Encoding

section Operations

variable {s : Session} (hs : s.Located Q) {pos : Position} (hpos : Q pos)

theorem stepsRaise_padding {pc n : Lazy} (hpc : pc.StepsRaise (Placeable Q))
    (hn : n.StepsRaise (Placeable Q)) : (padding pc n).StepsRaise (Placeable Q) := by
  unfold padding
  split
  · trivial
  · have hmod : (pc.mod n).StepsRaise (Placeable Q) := ⟨hpc, hn⟩
    exact ⟨⟨hmod, trivial⟩, trivial, hn.sub hmod, trivial⟩

include hpos in
theorem stepsRaise_checkedModulus {v : Lazy} (hv : v.StepsRaise (Placeable Q)) :
    (checkedModulus v pos).StepsRaise (Placeable Q) := by
  have hchecked := hv.mapInt placeable_fault (ensures_alignmentCheck hpos)
  unfold checkedModulus
  split
  · split
    · exact hv
    · exact hchecked
  · exact hchecked

include hs hpos

theorem ensures_writeText (text : String) (ending : List Int64) :
    Ensures (Session.Located Q) (Placed Q) (writeText s pos text ending) := by
  unfold writeText
  split
  · exact hs.writeList hpos trivial
  · exact Problem.placed_failure hpos _

theorem ensures_insertFile (fs : FileSystem) (name : String) :
    Ensures (Session.Located Q) (Placed Q) (insertFile fs s pos name) := by
  unfold insertFile
  dsimp only
  split
  · exact hs.writeList hpos trivial
  · exact Problem.placed_failureOf hpos _ _

omit hpos in
theorem ensures_writeInstruction {h : Header} (hpos : Q h.position) {os : List Operand}
    (hos : ∀ o ∈ os, o.StepsRaise (Placeable Q)) :
    Ensures (Session.Located Q) (Placed Q) (writeInstruction s h os) := by
  unfold writeInstruction
  split
  · exact Problem.placed_failure hpos _
  · apply (ensures_encode hpos _ hs.pc hos).bind
    intro words hwords
    exact hs.writeWords hpos hwords

omit hpos in
/-- An operation fails at its own place, and what it leaves behind stands there. -/
theorem ensures_apply (fs : FileSystem) {h : Header} (hpos : Q h.position) {o : Operation}
    (ho : o.StepsRaise (Placeable Q)) :
    Ensures (Session.Located Q) (Placed Q) (apply fs h o s) := by
  cases o with
  | nothing => exact hs
  | thisMachine => exact hs
  | decimalNumbers => exact hs
  | endOfSource => exact hs
  | includeFile name => exact hs
  | otherMachine => exact Problem.otherMachine.placed_failure hpos
  | makeArtifact a => exact ⟨hs.symbols, hs.pending, hs.pc, hs.link⟩
  | koi8r => exact ⟨hs.symbols, hs.pending, hs.pc, hs.link⟩
  | ascii text => exact ensures_writeText hs hpos text []
  | asciz text => exact ensures_writeText hs hpos text [0]
  | insertFile name => exact ensures_insertFile hs hpos fs name
  | bytes vs => exact hs.writeBytes hpos ho
  | words vs => exact hs.writeWords hpos ho
  | even => exact hs.writeList hpos (stepsRaise_padding hs.pc trivial)
  | instruction os =>
    apply ensures_writeInstruction hs hpos
    intro p hp v hv
    exact ho v (List.mem_filterMap.mpr ⟨p, hp, hv⟩)
  | dialect name =>
    unfold apply
    dsimp only
    split
    · exact hs
    · exact Problem.placed_failure hpos _
  | link v =>
    have hv : v.StepsRaise (Placeable Q) := ho v (by simp [Operation.values])
    refine ⟨hs.symbols, hs.pending, hv, ?_⟩
    dsimp only
    split
    · exact hs.link
    · exact hv
  | reserveBytes n =>
    have hn : n.StepsRaise (Placeable Q) := ho n (by simp [Operation.values])
    exact hs.writeList hpos ⟨hn, trivial⟩
  | reserveWords n =>
    have hn : n.StepsRaise (Placeable Q) := ho n (by simp [Operation.values])
    exact hs.writeList hpos ⟨hn.mul (Lazy.stepsRaise_int 2), trivial⟩
  | align v =>
    have hv : v.StepsRaise (Placeable Q) := ho v (by simp [Operation.values])
    exact hs.writeList hpos (stepsRaise_padding hs.pc (stepsRaise_checkedModulus hpos hv))
  | equate name v =>
    have hv : v.StepsRaise (Placeable Q) := ho v (by simp [Operation.values])
    exact ensures_define hs hpos hv name

end Operations

section Evaluating

variable {α : Type}

theorem raises_onSymbols {P : Failure → Prop} {x : Attempt SymbolTable α}
    (h : Raises (SymbolTable.Holds (SymbolLocated Q)) P x) :
    Raises (Session.Located Q) P (Session.onSymbols x) :=
  h.onPart (fun _ hs => hs.symbols) fun _ _ hs ht => ⟨ht, hs.pending, hs.pc, hs.link⟩

theorem raises_lookup (name : String) :
    Raises (SymbolTable.Holds (SymbolLocated Q)) (Placeable Q) (SymbolTable.lookup name) :=
  SymbolTable.raises_lookup placeable_fault (fun _ hy => hy.value) name

/-- The count of a block fails at the place of the block. -/
theorem raises_repeatCount {pos : Position} (hpos : Q pos) {count : Lazy}
    (hcount : count.StepsRaise (Placeable Q)) :
    Raises (Session.Located Q) (Placed Q) (repeatCount pos count) := by
  have hresolve := raises_onSymbols (hcount.raises_resolveInt placeable_fault raises_lookup)
  have hchecked : Raises (Session.Located Q) (Placeable Q) (do
      let n ← Session.onSymbols (count.resolveInt SymbolTable.lookup)
      if n < 0 then throw (.fault (.negativeCount n)) else pure n.toNatClampNeg) := by
    apply hresolve.bind
    intro n
    split
    · exact raises_throw (placeable_fault _)
    · exact raises_pure _
  apply hchecked.mapFailure
  intro e _
  exact Problem.placed_failureOf hpos _ e

variable (hQ : Places Q)
include hQ

theorem raises_resolveAll :
    Raises (SymbolTable.Holds (SymbolLocated Q)) (Placed Q) SymbolTable.resolveAll := by
  apply SymbolTable.raises_resolveAll placeable_fault fun _ hy => hy.value
  intro y hy e he
  exact (he.within _).annotate hQ hy.position

theorem raises_resolveWrite {w : Write} (hw : w.Located Q) :
    Raises (SymbolTable.Holds (SymbolLocated Q)) (Placed Q) (resolveWrite w) := by
  have hpayload : ∀ d, Ensures (fun _ => True) (Placeable Q) (payload d) := by
    intro d
    cases d with
    | int n => trivial
    | list xs => trivial
    | _ => exact placeable_fault _
  have hresolve : Raises (SymbolTable.Holds (SymbolLocated Q)) (Placeable Q) (do
      let d ← w.data.eval SymbolTable.lookup
      let bytes ← payload d
      let address ← w.address.resolveInt SymbolTable.lookup
      pure (bytes, address)) := by
    apply (hw.data.raises_eval placeable_fault raises_lookup).bind
    intro d
    apply (raises_lift (hpayload d)).bind
    intro bytes
    apply (hw.address.raises_resolveInt placeable_fault raises_lookup).bind
    intro address
    exact raises_pure _
  exact hresolve.mapFailure fun e he => he.annotate hQ hw.position

end Evaluating

/-- A store past the end of memory that the check of its address has let through: the assembler
breaks off, and reports nothing. -/
def BreaksOff (e : Failure) : Prop := ∃ a n, e = .fault (.storeOutside a n)

theorem ensures_store {pos : Position} (hpos : Q pos) (memory : Array UInt8) (address : Int64)
    (bytes : List Int64) :
    Ensures (fun _ => True) (fun e => Placed Q e ∨ BreaksOff e)
      (store pos memory address bytes) := by
  have hfrom : ∀ (memory : Array UInt8) (k : Nat), Ensures (fun _ => True)
      (fun e => Placed Q e ∨ BreaksOff e) (storeFrom pos memory k bytes) := by
    induction bytes with
    | nil => exact fun _ _ => trivial
    | cons b bs ih =>
      intro memory k
      unfold storeFrom
      split
      · exact .inl (Problem.placed_failure hpos _)
      · split
        · exact ih _ _
        · exact .inr ⟨_, _, rfl⟩
  unfold store
  dsimp only
  split
  · exact .inl (Problem.placed_failure hpos _)
  · exact hfrom _ _

theorem raises_storeAll (hQ : Places Q) {ws : List Write} (hws : ∀ w ∈ ws, w.Located Q)
    (memory : Array UInt8) :
    Raises (SymbolTable.Holds (SymbolLocated Q)) (fun e => Placed Q e ∨ BreaksOff e)
      (storeAll memory ws) := by
  induction ws generalizing memory with
  | nil => exact raises_pure memory
  | cons w ws ih =>
    rw [List.forall_mem_cons] at hws
    unfold storeAll
    apply ((raises_resolveWrite hQ hws.1).imp fun e he => .inl he).bind
    intro r
    apply (raises_lift (ensures_store hws.1.position memory r.2 r.1)).bind
    intro memory'
    exact ih hws.2 memory'

/-- All symbols and all stores could be resolved, and the link address fails with `e`. -/
def LinkAddressFails (s : Session) (e : Failure) : Prop :=
  ∃ t t' memory, SymbolTable.resolveAll.run s.symbols = (.ok (), t) ∧
    (storeAll #[] s.writes).run t = (.ok memory, t') ∧
    (resolveLink s.link).outcome t' = .error e

theorem raises_resolveLink {Q : Position → Prop} {link : Lazy}
    (hlink : link.StepsRaise (Placeable Q)) :
    Raises (SymbolTable.Holds (SymbolLocated Q)) (fun _ => True) (resolveLink link) := by
  have hresolve := hlink.raises_resolveInt placeable_fault raises_lookup
  apply (hresolve.mapFailure fun _ _ => trivial).bind
  intro n
  split
  · exact raises_throw trivial
  · exact raises_pure n

section Linking

variable {Q : Position → Prop} (hQ : Places Q) {s : Session} (hs : s.Located Q)
include hQ hs

/-- A link leaves what the session holds in its place. -/
theorem located_linkImage :
    (Session.linkImage.run s).2.Located Q ∧
      Ensures (fun _ => True) (fun e => Placed Q e ∨ LinkAddressFails s e ∨ BreaksOff e)
        (Session.linkImage.run s).1 := by
  have hwrites : ∀ w ∈ s.writes, w.Located Q := fun w hw => hs.pending w (List.mem_reverse.mp hw)
  rw [Session.linkImage, Attempt.run_bind_ok (Attempt.run_get s)]
  obtain ⟨ht, he⟩ := raises_resolveAll hQ s.symbols hs.symbols
  rcases hall : SymbolTable.resolveAll.run s.symbols with ⟨e | u, t⟩
  · rw [hall] at ht he
    rw [Attempt.run_bind_error (run_onSymbols hall)]
    exact ⟨⟨ht, hs.pending, hs.pc, hs.link⟩, .inl he⟩
  · rw [hall] at ht
    rw [Attempt.run_bind_ok (run_onSymbols hall)]
    obtain ⟨ht', he'⟩ := raises_storeAll hQ hwrites #[] t ht
    rcases hstores : (storeAll #[] s.writes).run t with ⟨e | memory, t'⟩
    · rw [hstores] at ht' he'
      rw [Attempt.run_bind_error (run_onSymbols (s := s.setSymbols t) hstores)]
      exact ⟨⟨ht', hs.pending, hs.pc, hs.link⟩, he'.imp_right .inr⟩
    · rw [hstores] at ht'
      rw [Attempt.run_bind_ok (run_onSymbols (s := s.setSymbols t) hstores)]
      have hu := (raises_resolveLink hs.link t' ht').1
      rcases hlink : (resolveLink s.link).run t' with ⟨e | n, t''⟩
      · rw [hlink] at hu
        rw [Attempt.run_bind_error (run_onSymbols (s := (s.setSymbols t).setSymbols t') hlink)]
        have hfails : LinkAddressFails s e :=
          ⟨t, t', memory, hall, hstores, Attempt.outcome_eq_of_run hlink⟩
        exact ⟨⟨hu, hs.pending, hs.pc, hs.link⟩, .inr (.inl hfails)⟩
      · rw [hlink] at hu
        rw [Attempt.run_bind_ok (run_onSymbols (s := (s.setSymbols t).setSymbols t') hlink)]
        exact ⟨⟨hu, hs.pending, hs.pc, hs.link⟩, trivial⟩

end Linking

end Eleven.Assembly

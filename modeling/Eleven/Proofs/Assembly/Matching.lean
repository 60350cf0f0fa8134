import Eleven.Proofs.Assembly.Eager
import Eleven.Proofs.Assembly.Linking

/-! Sessions beside the eager assembler: every operation of the one is followed by the other. -/
namespace Eleven.Assembly

open Eleven.Files (FileSystem)
open Eleven.Machine (Instruction)
open Eleven.Source (Header Operation Operand)
open Eager (State eager)

/-- What a session has asked for so far holds in an environment: its stores can be carried out, and
every symbol has the value of its definition. -/
structure Holds (env : Env) (s : Session) : Prop where
  stores : ∃ memory, stored env #[] s.writes = .ok memory
  results : s.symbols.AgreesWith env
  definitions : ∀ name v, s.symbols.binding? name = some v →
    ∃ n, env name = .ok (.int n) ∧ v.intValue env = .ok n

/-- A session and an eager assembler that have done the same. -/
structure Matches (env : Env) (s : Session) (e : State) : Prop where
  counter : s.pc.intValue env = e.pc
  memory : stored env #[] s.writes = .ok e.memory
  koi8r : s.koi8r = e.koi8r
  files : s.files = e.files
  labels : ∀ l ∈ e.labels, env l.1 = .ok (.int l.2)
  equates : ∀ q ∈ e.equates, env q.1 = .ok (.int q.2)

/-- The second session has asked for further stores, and for no further symbols. -/
def StoresMore (s s' : Session) : Prop :=
  s'.symbols = s.symbols ∧ ∃ new, s'.writes = s.writes ++ new

section Stores

variable {env : Env} {s s' : Session} {e : State} {v : Lazy} {pos : Position}

theorem StoresMore.refl (s : Session) : StoresMore s s := ⟨rfl, [], by simp⟩

theorem StoresMore.trans {s'' : Session} (h : StoresMore s s') (h' : StoresMore s' s'') :
    StoresMore s s'' := by
  obtain ⟨hsym, new, hnew⟩ := h
  obtain ⟨hsym', new', hnew'⟩ := h'
  exact ⟨hsym'.trans hsym, new ++ new', by rw [hnew', hnew, List.append_assoc]⟩

theorem Holds.of_storesMore (hh : Holds env s') (h : StoresMore s s') : Holds env s := by
  obtain ⟨hsym, new, hnew⟩ := h
  obtain ⟨memory, hmem⟩ := hh.stores
  rw [hnew, stored_append] at hmem
  obtain ⟨before, hbefore, -⟩ := bind_eq_ok.mp hmem
  exact ⟨⟨before, hbefore⟩, hsym ▸ hh.results, hsym ▸ hh.definitions⟩

theorem stored_singleton_eq_ok {w : Write} {memory memory' : Array UInt8}
    (h : stored env memory [w] = .ok memory') :
    ∃ d bytes a, w.data.value env = .ok d ∧ payload d = .ok bytes ∧
      w.address.intValue env = .ok a ∧ store w.position memory a bytes = .ok memory' := by
  obtain ⟨⟨bytes, a⟩, hres, h⟩ := bind_eq_ok.mp h
  obtain ⟨m, hstore, h⟩ := bind_eq_ok.mp h
  cases h
  obtain ⟨d, hd, hres⟩ := bind_eq_ok.mp (mapError_eq_ok.mp hres)
  obtain ⟨bs, hbs, hres⟩ := bind_eq_ok.mp hres
  obtain ⟨b, hb, hres⟩ := bind_eq_ok.mp hres
  cases hres
  exact ⟨d, bytes, a, hd, hbs, hb, hstore⟩

theorem address_nonneg_of_store {memory memory' : Array UInt8} {address : Int64}
    {bytes : List Int64} (h : store pos memory address bytes = .ok memory') :
    0 ≤ address.toInt := by
  dsimp only [store] at h
  split_ifs at h with hout
  rw [not_or, Int64.not_lt, Int64.le_iff_toInt_le] at hout
  exact hout.1

/-- A store at the location counter is made by the eager assembler too, and they go on together if
the location counter moves behind it. -/
theorem Matches.put (hm : Matches env s e)
    (hs' : s' = { s with pending := ⟨s.pc, v, pos⟩ :: s.pending, pc := s'.pc })
    (hh : Holds env s') :
    ∃ p d bytes e', e.pc = .ok p ∧ v.value env = .ok d ∧ payload d = .ok bytes ∧
      e.put pos bytes = .ok e' ∧
      (s'.pc.intValue env = .ok (p + Int64.ofNat bytes.length) → Matches env s' e') := by
  obtain ⟨memory, hmem⟩ := hh.stores
  have hw : s'.writes = s.writes ++ [⟨s.pc, v, pos⟩] := by
    rw [hs', Session.writes, Session.writes, List.reverse_cons]
  have hmem' := hmem
  rw [hw, stored_append, hm.memory, ok_bind] at hmem'
  obtain ⟨d, bytes, p, hd, hbytes, hp, hstore⟩ := stored_singleton_eq_ok hmem'
  have hpc : e.pc = .ok p := hm.counter ▸ hp
  refine ⟨p, d, bytes, { e with memory := memory, pc := .ok (p + Int64.ofNat bytes.length) }, hpc,
    hd, hbytes, ?_, fun hnext => ⟨hnext, hmem, ?_, ?_, hm.labels, hm.equates⟩⟩
  · rw [State.put, hpc, ok_bind, hstore]
    rfl
  · rw [hs']
    exact hm.koi8r
  · rw [hs']
    exact hm.files

theorem Matches.writeByte (hm : Matches env s e) (hh : Holds env (s.writeByte v pos)) :
    ∃ n e', v.intValue env = .ok n ∧ e.putByte pos n = .ok e' ∧
      Matches env (s.writeByte v pos) e' := by
  obtain ⟨p, d, bytes, e', hp, hd, hbytes, hput, hnext⟩ :=
    hm.put (v := v.mapInt (Session.storedByte pos)) (by rfl) hh
  rw [Lazy.value_mapInt] at hd
  obtain ⟨n, hn, hd⟩ := bind_eq_ok.mp hd
  obtain ⟨b, hb, hd⟩ := bind_eq_ok.mp hd
  cases hd
  cases hbytes
  refine ⟨n, e', hn, by rw [State.putByte, hb, ok_bind, hput], hnext ?_⟩
  change (s.pc.addInt 1).intValue env = _
  rw [Lazy.intValue_addInt, hm.counter, hp]
  rfl

theorem Matches.writeWord (hm : Matches env s e) (hh : Holds env (s.writeWord v pos)) :
    ∃ n e', v.intValue env = .ok n ∧ e.putWord pos n = .ok e' ∧
      Matches env (s.writeWord v pos) e' := by
  -- the two bytes are two stores, with this session between them
  let mid : Session := { s with
    pending := ⟨s.pc, (v.mapInt (Session.storedWord pos)).mapInt Session.lowByte, pos⟩ :: s.pending
    pc := s.pc.addInt 1 }
  have hmid : Holds env mid := hh.of_storesMore ⟨rfl,
    [⟨mid.pc, (v.mapInt (Session.storedWord pos)).mapInt Session.highByte, pos⟩],
    by simp [mid, Session.writes, Session.writeWord]⟩
  obtain ⟨p, d, low, e₁, hp, hd, hlow, hput, hnext⟩ := hm.put (by rfl) hmid
  rw [Lazy.value_mapInt, Lazy.intValue_mapInt] at hd
  obtain ⟨w, hw, hd⟩ := bind_eq_ok.mp hd
  cases hd
  cases hlow
  obtain ⟨n, hn, hstored⟩ := bind_eq_ok.mp hw
  have hmid' : Matches env mid e₁ := hnext (by
    change (s.pc.addInt 1).intValue env = _
    rw [Lazy.intValue_addInt, hm.counter, hp]
    rfl)
  obtain ⟨p', d', high, e₂, hp', hd', hhigh, hput', hnext'⟩ :=
    hmid'.put (by rfl) hh
  rw [Lazy.value_mapInt, Lazy.intValue_mapInt, hn, ok_bind, hstored] at hd'
  cases hd'
  cases hhigh
  refine ⟨n, e₂, hn, by rw [State.putWord, hstored, ok_bind, hput, ok_bind, hput'], hnext' ?_⟩
  have hstep : p' = p + 1 := by
    have h := hmid'.counter
    change (s.pc.addInt 1).intValue env = _ at h
    rw [Lazy.intValue_addInt, hm.counter, hp, hp'] at h
    exact (Except.ok.inj h).symm
  change (s.pc.addInt 2).intValue env = _
  rw [Lazy.intValue_addInt, hm.counter, hp, ok_bind, hstep, Int64.add_assoc]
  rfl

theorem Matches.writeList (hm : Matches env s e) (hh : Holds env (s.writeList v pos)) :
    ∃ p d, e.pc = .ok p ∧ 0 ≤ p.toInt ∧ v.value env = .ok d ∧
      ∀ xs, d = .list xs → ∃ e', e.put pos xs = .ok e' ∧ Matches env (s.writeList v pos) e' := by
  obtain ⟨p, d, bytes, e', hp, hd, hbytes, hput, hnext⟩ := hm.put (v := v) (by rfl) hh
  refine ⟨p, d, hp, ?_, hd, ?_⟩
  · rw [State.put, hp, ok_bind] at hput
    obtain ⟨memory, hstore, -⟩ := bind_eq_ok.mp hput
    exact address_nonneg_of_store hstore
  · rintro xs rfl
    obtain rfl : xs = bytes := Except.ok.inj hbytes
    refine ⟨e', hput, hnext ?_⟩
    change (s.pc.add v.length).intValue env = _
    rw [Lazy.intValue_add, hm.counter, hp, ok_bind, Lazy.intValue_length env hd, ok_bind]

theorem storesMore_writeByte (s : Session) (v : Lazy) (pos : Position) :
    StoresMore s (s.writeByte v pos) :=
  ⟨rfl, [⟨s.pc, v.mapInt (Session.storedByte pos), pos⟩],
    by simp [Session.writes, Session.writeByte]⟩

theorem storesMore_writeWord (s : Session) (v : Lazy) (pos : Position) :
    StoresMore s (s.writeWord v pos) :=
  ⟨rfl, [⟨s.pc, (v.mapInt (Session.storedWord pos)).mapInt Session.lowByte, pos⟩,
      ⟨s.pc.addInt 1, (v.mapInt (Session.storedWord pos)).mapInt Session.highByte, pos⟩],
    by simp [Session.writes, Session.writeWord]⟩

theorem storesMore_writeList (s : Session) (v : Lazy) (pos : Position) :
    StoresMore s (s.writeList v pos) :=
  ⟨rfl, [⟨s.pc, v, pos⟩], by simp [Session.writes, Session.writeList]⟩

theorem storesMore_foldl {write : Session → Lazy → Session}
    (hmore : ∀ s v, StoresMore s (write s v)) (vs : List Lazy) (s : Session) :
    StoresMore s (vs.foldl write s) := by
  induction vs generalizing s with
  | nil => exact .refl s
  | cons v vs ih => exact (hmore s v).trans (ih (write s v))

/-- Values written one after the other. -/
theorem Matches.foldl {write : Session → Lazy → Session}
    {put : State → Int64 → Except Failure State} (hmore : ∀ s v, StoresMore s (write s v))
    (hwrite : ∀ s e v, Matches env s e → Holds env (write s v) →
      ∃ n e', v.intValue env = .ok n ∧ put e n = .ok e' ∧ Matches env (write s v) e')
    {vs : List Lazy} (hm : Matches env s e) (hh : Holds env (vs.foldl write s)) :
    ∃ ns e', Eager.values env vs = .ok ns ∧ e.putEach put ns = .ok e' ∧
      Matches env (vs.foldl write s) e' := by
  induction vs generalizing s e with
  | nil => exact ⟨[], e, rfl, rfl, hm⟩
  | cons v vs ih =>
    have hfirst : Holds env (write s v) := hh.of_storesMore (storesMore_foldl hmore vs (write s v))
    obtain ⟨n, e₁, hn, hput, hm₁⟩ := hwrite s e v hm hfirst
    obtain ⟨ns, e₂, hns, hputs, hm₂⟩ := ih hm₁ hh
    refine ⟨n :: ns, e₂, ?_, ?_, hm₂⟩
    · rw [Eager.values, hn, ok_bind, hns]
      rfl
    · rw [State.putEach, hput, ok_bind, hputs]

theorem Matches.writeBytes {vs : List Lazy} (hm : Matches env s e)
    (hh : Holds env (s.writeBytes vs pos)) :
    ∃ ns e', Eager.values env vs = .ok ns ∧ e.putBytes pos ns = .ok e' ∧
      Matches env (s.writeBytes vs pos) e' :=
  hm.foldl (fun s v => storesMore_writeByte s v pos) (fun _ _ _ h => h.writeByte) hh

theorem Matches.writeWords {vs : List Lazy} (hm : Matches env s e)
    (hh : Holds env (s.writeWords vs pos)) :
    ∃ ns e', Eager.values env vs = .ok ns ∧ e.putWords pos ns = .ok e' ∧
      Matches env (s.writeWords vs pos) e' :=
  hm.foldl (fun s v => storesMore_writeWord s v pos) (fun _ _ _ h => h.writeWord) hh

end Stores

section Operations

/-- A change of a session that the eager assembler follows wherever what the session asks for
holds. -/
def Follows (env : Env) (f : Session → Except Failure Session)
    (g : State → Except Failure State) : Prop :=
  ∀ s s', s.symbols.Quiet → f s = .ok s' →
    s'.symbols.Quiet ∧ (Holds env s' → Holds env s) ∧
      ∀ e, Matches env s e → Holds env s' → ∃ e', g e = .ok e' ∧ Matches env s' e'

variable {env : Env} {f : Session → Except Failure Session} {g : State → Except Failure State}

/-- A change that defines no symbol. -/
theorem Follows.of_storesMore (hmore : ∀ s s', f s = .ok s' → StoresMore s s')
    (hstep : ∀ s s' e, f s = .ok s' → Matches env s e → Holds env s' →
      ∃ e', g e = .ok e' ∧ Matches env s' e') : Follows env f g := by
  intro s s' hq hs
  have h := hmore s s' hs
  exact ⟨h.1 ▸ hq, fun hh => hh.of_storesMore h, fun e => hstep s s' e hs⟩

theorem follows_error (e : Failure) : Follows env (fun _ => .error e) g := by
  intro s s' _ h
  cases h

theorem follows_ok {c : Session → Session} {d : State → State}
    (hmore : ∀ s, StoresMore s (c s))
    (hchange : ∀ s e, Matches env s e → Matches env (c s) (d e)) :
    Follows env (fun s => .ok (c s)) (fun e => .ok (d e)) := by
  refine .of_storesMore (fun s s' h => ?_) (fun s s' e h hm _ => ?_)
  · cases h
    exact hmore s
  · cases h
    exact ⟨d e, rfl, hchange s e hm⟩

theorem Holds.of_define {s s' : Session} {name : String} {v : Lazy} {pos : Position}
    (h : s.define name v pos = .ok s') (hh : Holds env s') : Holds env s := by
  obtain ⟨t, ht, h⟩ := bind_eq_ok.mp h
  cases h
  exact ⟨hh.stores, fun n d hn => hh.results n d ((SymbolTable.isResolved_define ht n d).mpr hn),
    fun n w hw => hh.definitions n w (SymbolTable.binding?_define_of_some ht hw)⟩

/-- A definition, of which the eager assembler finds the value. -/
theorem follows_define {name : String} {value : Session → Lazy} {pos : Position}
    (hmeet : ∀ s e n, Matches env s e → (value s).intValue env = .ok n →
      env name = .ok (.int n) → ∃ e', g e = .ok e' ∧ Matches env s e') :
    Follows env (fun s => s.define name (value s) pos) g := by
  intro s s' hq hs
  refine ⟨?_, Holds.of_define hs, fun e hm hh => ?_⟩
  · obtain ⟨t, ht, h⟩ := bind_eq_ok.mp hs
    cases h
    exact hq.define ht
  · obtain ⟨t, ht, h⟩ := bind_eq_ok.mp hs
    cases h
    have hb : t.binding? name = some (value s) := by
      rw [SymbolTable.binding?_define ht, if_pos rfl]
    obtain ⟨n, hn, hv⟩ := hh.definitions name (value s) hb
    obtain ⟨e', he', hm'⟩ := hmeet s e n hm hv hn
    exact ⟨e', he', ⟨hm'.counter, hm'.memory, hm'.koi8r, hm'.files, hm'.labels, hm'.equates⟩⟩

theorem follows_label (name : String) (pos : Position) :
    Follows env (fun s => s.define name s.pc pos) (State.meetLabel name) := by
  refine follows_define fun s e n hm hpc hn => ?_
  have hp : e.pc = .ok n := hm.counter ▸ hpc
  refine ⟨{ e with labels := (name, n) :: e.labels }, by rw [State.meetLabel, hp, ok_bind],
    hm.counter, hm.memory, hm.koi8r, hm.files, ?_, hm.equates⟩
  intro l hl
  rcases List.mem_cons.mp hl with rfl | hl
  · exact hn
  · exact hm.labels l hl

theorem follows_equate (name : String) (v : Lazy) (pos : Position) :
    Follows env (fun s => s.define name v pos)
      (fun e => do .ok (e.meetEquate name (← v.intValue env))) := by
  refine follows_define fun s e n hm hv hn => ?_
  refine ⟨e.meetEquate name n, by rw [hv, ok_bind],
    hm.counter, hm.memory, hm.koi8r, hm.files, hm.labels, ?_⟩
  intro q hq
  rcases List.mem_cons.mp hq with rfl | hq
  · exact hn
  · exact hm.equates q hq

/-- A list stored at the location counter, where the eager assembler stores the same. -/
theorem follows_writeList {list : Session → Lazy} {pos : Position}
    (hput : ∀ s e p d, Matches env s e → e.pc = .ok p → 0 ≤ p.toInt →
      (list s).value env = .ok d → ∃ xs, d = .list xs ∧ g e = e.put pos xs) :
    Follows env (fun s => .ok (s.writeList (list s) pos)) g := by
  refine .of_storesMore (fun s s' h => ?_) (fun s s' e h hm hh => ?_)
  · cases h
    exact storesMore_writeList s _ pos
  · cases h
    obtain ⟨p, d, hp, hlow, hd, hnext⟩ := hm.writeList hh
    obtain ⟨xs, hxs, hg⟩ := hput s e p d hm hp hlow hd
    obtain ⟨e', he', hm'⟩ := hnext xs hxs
    exact ⟨e', hg.trans he', hm'⟩

theorem follows_literal (xs : List Int64) (pos : Position) :
    Follows env (fun s => .ok (s.writeList (.list xs) pos)) (fun e => e.put pos xs) := by
  refine follows_writeList fun s e p d _ _ _ hd => ?_
  cases hd
  exact ⟨xs, rfl, rfl⟩

theorem follows_zeros (v : Lazy) (pos : Position) :
    Follows env (fun s => .ok (s.writeList (.repeated v (.int 0)) pos))
      (fun e => do e.putZeros pos (← v.intValue env)) := by
  refine follows_writeList fun s e p d _ _ _ hd => ?_
  rw [Lazy.value_repeated] at hd
  obtain ⟨n, hn, hd⟩ := bind_eq_ok.mp hd
  split_ifs at hd with hneg
  refine ⟨_, repeatPattern_zero hd, ?_⟩
  rw [hn, ok_bind, State.putZeros, if_neg hneg]

/-- Padding to a modulus, which the eager assembler checks where it stands. -/
theorem follows_padding {v : Lazy} {m : Except Failure Int64} (pos : Position)
    (hv : v.intValue env = (m >>= alignmentCheck pos)) :
    Follows env (fun s => .ok (s.writeList (padding s.pc v) pos))
      (fun e => m >>= e.putPadding pos) := by
  refine follows_writeList fun s e p d hm hp hlow hd => ?_
  obtain ⟨k, hk, rfl⟩ := value_padding (hm.counter.trans hp) hlow hd
  rw [hv] at hk
  obtain ⟨n, rfl, hcheck⟩ := bind_eq_ok.mp hk
  refine ⟨_, rfl, ?_⟩
  rw [ok_bind, State.putPadding, hcheck, ok_bind, hp, ok_bind]

theorem follows_text (text : String) (ending : List Int64) (pos : Position) :
    Follows env (fun s => writeText s pos text ending) (fun e => e.putText pos text ending) := by
  intro s s' hq h
  dsimp only [writeText] at h
  cases ht : textBytes s.koi8r text with
  | error p =>
    rw [ht] at h
    cases h
  | ok bs =>
    rw [ht] at h
    obtain ⟨hq', hh', hstep⟩ := follows_literal (bs ++ ending) pos s s' hq h
    refine ⟨hq', hh', fun e hm hh => ?_⟩
    obtain ⟨e', he', hm'⟩ := hstep e hm hh
    refine ⟨e', ?_, hm'⟩
    dsimp only [State.putText]
    rw [← hm.koi8r, ht]
    exact he'

theorem follows_file (fs : FileSystem) (name : String) (pos : Position) :
    Follows env (fun s => insertFile fs s pos name) (fun e => e.putFile fs pos name) := by
  dsimp only [insertFile, State.putFile]
  cases fs.read (Path.resolve pos.file name) with
  | error f => exact follows_error _
  | ok bytes => exact follows_literal _ pos

theorem follows_bytes (vs : List Lazy) (pos : Position) :
    Follows env (fun s => .ok (s.writeBytes vs pos))
      (fun e => do e.putBytes pos (← Eager.values env vs)) := by
  refine .of_storesMore (fun s s' h => ?_) (fun s s' e h hm hh => ?_)
  · cases h
    exact storesMore_foldl (fun s v => storesMore_writeByte s v pos) vs s
  · cases h
    obtain ⟨ns, e', hns, hput, hm'⟩ := hm.writeBytes hh
    exact ⟨e', by rw [hns, ok_bind, hput], hm'⟩

theorem follows_words (vs : List Lazy) (pos : Position) :
    Follows env (fun s => .ok (s.writeWords vs pos))
      (fun e => do e.putWords pos (← Eager.values env vs)) := by
  refine .of_storesMore (fun s s' h => ?_) (fun s s' e h hm hh => ?_)
  · cases h
    exact storesMore_foldl (fun s v => storesMore_writeWord s v pos) vs s
  · cases h
    obtain ⟨ns, e', hns, hput, hm'⟩ := hm.writeWords hh
    exact ⟨e', by rw [hns, ok_bind, hput], hm'⟩

theorem counter_of_putWords {e e' : State} {pos : Position} {n : Int64} {ns : List Int64}
    (h : e.putWords pos (n :: ns) = .ok e') : ∃ p, e.pc = .ok p := by
  obtain ⟨e₁, hword, -⟩ := bind_eq_ok.mp h
  obtain ⟨w, -, hput⟩ := bind_eq_ok.mp hword
  obtain ⟨e₂, hput, -⟩ := bind_eq_ok.mp hput
  obtain ⟨p, hp, -⟩ := bind_eq_ok.mp hput
  exact ⟨p, hp⟩

theorem follows_instruction (h : Header) (os : List Operand) :
    Follows env (fun s => writeInstruction s h os) (fun e => Eager.putInstruction env e h os) := by
  unfold writeInstruction Eager.putInstruction
  cases Instruction.ofName? h.mnemonic with
  | none => exact follows_error _
  | some i =>
    dsimp only
    refine .of_storesMore (fun s s' hs => ?_) (fun s s' e hs hm hh => ?_)
    · obtain ⟨words, -, hs⟩ := bind_eq_ok.mp hs
      cases hs
      exact storesMore_foldl (fun s v => storesMore_writeWord s v h.position) words s
    · obtain ⟨words, hwords, hs⟩ := bind_eq_ok.mp hs
      cases hs
      obtain ⟨ns, e', hns, hput, hm'⟩ := hm.writeWords hh
      -- an instruction has a first word, so the location counter is used
      obtain ⟨p, hp⟩ : ∃ p, e.pc = .ok p := by
        unfold encode at hwords
        split_ifs at hwords
        obtain ⟨w, -, hwords⟩ := bind_eq_ok.mp hwords
        cases hwords
        obtain ⟨n, -, hns⟩ := bind_eq_ok.mp hns
        obtain ⟨ns', -, hns⟩ := bind_eq_ok.mp hns
        cases hns
        exact counter_of_putWords hput
      refine ⟨e', ?_, hm'⟩
      rw [hp, ok_bind, ← values_encode (hm.counter.trans hp) hwords, hns, ok_bind, hput]

theorem follows_link (v : Lazy) :
    Follows env (fun s => .ok { s with pc := v, link := if s.project then s.link else v })
      (State.moveTo false (v.intValue env)) := by
  refine .of_storesMore (fun s s' h => ?_) (fun s s' e h hm _ => ?_)
  · cases h
    exact ⟨rfl, [], by simp [Session.writes]⟩
  · cases h
    exact ⟨_, rfl, rfl, hm.memory, hm.koi8r, hm.files, hm.labels, hm.equates⟩

theorem follows_nothing : Follows env (fun s => .ok s) (fun e => .ok e) :=
  follows_ok StoresMore.refl fun _ _ hm => hm

/-- Every operation is followed. -/
theorem follows_apply (fs : FileSystem) (h : Header) (o : Operation) :
    Follows env (apply fs h o) (Eager.perform env fs false h o) := by
  cases o with
  | nothing => exact follows_nothing
  | thisMachine => exact follows_nothing
  | decimalNumbers => exact follows_nothing
  | endOfSource => exact follows_nothing
  | includeFile _ => exact follows_nothing
  | instruction os => exact follows_instruction h os
  | link v => exact follows_link v
  | otherMachine => exact follows_error _
  | dialect name =>
    unfold apply Eager.perform
    by_cases hname : name ∈ dialects
    · simp only [hname, if_true]
      exact follows_nothing
    · simp only [hname, if_false]
      exact follows_error _
  | bytes vs => exact follows_bytes vs h.position
  | words vs => exact follows_words vs h.position
  | reserveBytes v => exact follows_zeros v h.position
  | reserveWords v =>
    have hzeros : Follows env _ _ := follows_zeros (v.mul (.int 2)) h.position
    simp only [Lazy.intValue_mul, Lazy.intValue_int, ok_bind, bind_assoc] at hzeros
    exact hzeros
  | even => exact follows_padding (m := .ok 2) h.position rfl
  | align v => exact follows_padding h.position (intValue_checkedModulus v h.position)
  | ascii text => exact follows_text text [] h.position
  | asciz text => exact follows_text text [0] h.position
  | makeArtifact a =>
    exact follows_ok (c := fun s => { s with build := s.build ++ [a] }) (d := id)
      (fun s => ⟨rfl, [], by simp [Session.writes]⟩)
      fun s e hm => ⟨hm.counter, hm.memory, hm.koi8r, hm.files, hm.labels, hm.equates⟩
  | koi8r =>
    exact follows_ok (c := fun s => { s with koi8r := true })
      (d := fun e => { e with koi8r := true })
      (fun s => ⟨rfl, [], by simp [Session.writes]⟩)
      fun s e hm => ⟨hm.counter, hm.memory, rfl, hm.files, hm.labels, hm.equates⟩
  | insertFile name => exact follows_file fs name h.position
  | equate name v => exact follows_equate name v h.position

end Operations

end Eleven.Assembly

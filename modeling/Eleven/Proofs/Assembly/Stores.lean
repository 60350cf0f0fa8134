import Eleven.Proofs.Assembly.Memory
import Eleven.Proofs.Lazy.Arithmetic
import Mathlib.Algebra.Group.Int.Defs
import Mathlib.Tactic.SplitIfs

/-! Stores where every symbol has a fixed meaning, and the ways in which a session asks for them. -/
namespace Eleven.Assembly

/-- The bytes and the address of a store in an environment. -/
def Write.resolved (env : Env) (w : Write) : Except Failure (List Int64 × Int64) :=
  Except.mapError (Failure.annotate w.position) do
    let d ← w.data.value env
    let bytes ← payload d
    let address ← w.address.intValue env
    .ok (bytes, address)

/-- Memory after stores in an environment. -/
def stored (env : Env) : Array UInt8 → List Write → Except Failure (Array UInt8)
  | memory, [] => .ok memory
  | memory, w :: ws => do
    let (bytes, address) ← w.resolved env
    let memory ← store w.position memory address bytes
    stored env memory ws

theorem stored_append (env : Env) (memory : Array UInt8) (ws ws' : List Write) :
    stored env memory (ws ++ ws') =
      (stored env memory ws >>= fun memory => stored env memory ws') := by
  induction ws generalizing memory with
  | nil => rfl
  | cons w ws ih => simp only [List.cons_append, stored, bind_assoc, ih]

/-- Bytes with others laid over them at an address, and zeros between them if they end earlier. -/
def overlay (bytes : List UInt8) (address : Nat) (new : List UInt8) : List UInt8 :=
  bytes.take address ++ List.replicate (address - bytes.length) 0 ++ new ++
    bytes.drop (address + new.length)

/-- The bytes that stores leave, each laid over those before it. -/
def overlaid (bytes : List UInt8) (es : List (List Int64 × Int64)) : List UInt8 :=
  es.foldl (fun bytes e => overlay bytes e.2.toInt.toNat (e.1.map byteOf)) bytes

/-- Whether a store is of bytes, and at addresses that exist. -/
def fitsMemory (e : List Int64 × Int64) : Bool :=
  e.1.all (fun b => decide (IsByte b)) &&
    decide (0 ≤ e.2.toInt ∧ e.2.toInt + e.1.length ≤ 0o200000)

/-- Stores that fit are all carried out. What they leave can be computed without memory, which takes
a step for every byte it grows by. -/
theorem stored_of_fits {env : Env} {ws : List Write} {es : List (List Int64 × Int64)}
    (hes : ws.map (fun w => (w.resolved env).toOption) = es.map some)
    (hfits : es.all fitsMemory = true) (memory : Array UInt8) :
    ∃ memory', stored env memory ws = .ok memory' ∧
      memory'.toList = overlaid memory.toList es := by
  induction es generalizing ws memory with
  | nil =>
    obtain rfl := List.map_eq_nil_iff.mp hes
    exact ⟨memory, rfl, rfl⟩
  | cons e es ih =>
    obtain ⟨w, ws, rfl, hw, hes⟩ := List.map_eq_cons_iff.mp hes
    rw [List.all_cons, Bool.and_eq_true] at hfits
    obtain ⟨hfirst, hrest⟩ := hfits
    simp only [fitsMemory, Bool.and_eq_true, List.all_eq_true, decide_eq_true_eq] at hfirst
    obtain ⟨hbytes, hlow, hhigh⟩ := hfirst
    obtain ⟨memory', hstored, hleft⟩ :=
      ih hes hrest (overwrite memory e.2.toInt.toNat (e.1.map byteOf))
    refine ⟨memory', ?_, ?_⟩
    · rw [stored, toOption_eq_some.mp hw, ok_bind]
      dsimp only
      rw [store_of_fits w.position hbytes memory hlow hhigh, ok_bind, hstored]
    · rw [hleft, toList_overwrite, ← Array.length_toList]
      rfl

/-- A session that has asked for bytes at an address, and for nothing else, and now stands behind
them. -/
structure Emits (env : Env) (address : Int64) (bytes : List UInt8) (s s' : Session) : Prop where
  stores : ∃ new, s'.writes = s.writes ++ new ∧
    ∀ memory, stored env memory new = .ok (overwrite memory address.toInt.toNat bytes)
  counter : s'.pc.intValue env = .ok (address + Int64.ofNat bytes.length)
  others : s' = { s with pending := s'.pending, pc := s'.pc }

theorem Emits.trans {env : Env} {address : Int64} {bytes rest : List UInt8} {s s' s'' : Session}
    (h : Emits env address bytes s s')
    (h' : Emits env (address + Int64.ofNat bytes.length) rest s' s'')
    (hlow : 0 ≤ address.toInt) (hhigh : address.toInt + bytes.length < 2 ^ 63) :
    Emits env address (bytes ++ rest) s s'' := by
  obtain ⟨new, hnew, hstore⟩ := h.stores
  obtain ⟨new', hnew', hstore'⟩ := h'.stores
  refine ⟨⟨new ++ new', ?_, fun memory => ?_⟩, ?_, ?_⟩
  · rw [hnew', hnew, List.append_assoc]
  · have haddr : (address + Int64.ofNat bytes.length).toInt.toNat =
        address.toInt.toNat + bytes.length := by
      rw [Machine.toInt_add_ofNat hlow hhigh]
      omega
    rw [stored_append, hstore, ok_bind, hstore', haddr, overwrite_overwrite]
  · rw [h'.counter, List.length_append, Int64.ofNat_add, Int64.add_assoc]
  · rw [h'.others, h.others]

open Eleven.Machine (wrapAddress unsignedWord wordsToBytes bytesOfWord)

/-- A word that may be stored is stored as its low sixteen bits. -/
theorem storedWord_eq_ok {pos : Position} {n m : Int64} (h : Session.storedWord pos n = .ok m) :
    m = unsignedWord (wrapAddress n) := by
  unfold Session.storedWord at h
  split_ifs at h with hbig hsmall hneg
  · have hm : n + 65536 = m := Except.ok.inj h
    rw [Int64.not_lt, Int64.le_iff_toInt_le] at hsmall
    rw [Int64.lt_iff_toInt_lt] at hneg
    change -65536 ≤ n.toInt at hsmall
    change n.toInt < 0 at hneg
    have hint : m.toInt = n.toInt + 65536 := by
      rw [← hm, Int64.toInt_add]
      change (n.toInt + 65536).bmod (2 ^ 64) = _
      exact Int.bmod_eq_of_le (by omega) (by omega)
    have hwrap : wrapAddress m = wrapAddress n := by
      rw [← hm, Machine.wrapAddress_add, show wrapAddress 65536 = 0 by decide, UInt16.add_zero]
    rw [← hwrap, Machine.unsignedWord_wrapAddress (by omega) (by omega)]
  · have hm : n = m := Except.ok.inj h
    rw [ge_iff_le, Int64.not_le, Int64.lt_iff_toInt_lt] at hbig
    rw [Int64.not_lt, Int64.le_iff_toInt_le] at hneg
    change n.toInt < 65536 at hbig
    change 0 ≤ n.toInt at hneg
    rw [Machine.unsignedWord_wrapAddress hneg (by omega), hm]

theorem storedWord_of_range (pos : Position) {n : Int64} (hlow : -65536 ≤ n.toInt)
    (hhigh : n.toInt < 65536) :
    Session.storedWord pos n = .ok (unsignedWord (wrapAddress n)) := by
  have hbig : ¬ n ≥ 65536 := by
    rw [ge_iff_le, Int64.le_iff_toInt_le]
    exact Int.not_le.mpr hhigh
  have hsmall : ¬ n < -65536 := by
    rw [Int64.lt_iff_toInt_lt]
    exact Int.not_lt.mpr hlow
  obtain ⟨m, hm⟩ : ∃ m, Session.storedWord pos n = .ok m := by
    rw [Session.storedWord, if_neg hbig, if_neg hsmall]
    split_ifs
    · exact ⟨_, rfl⟩
    · exact ⟨_, rfl⟩
  rw [hm, storedWord_eq_ok hm]

/-- The words that values are stored as. -/
def storedWords (env : Env) (pos : Position) : List Lazy → Except Failure (List UInt16)
  | [] => .ok []
  | v :: vs => do
    let n ← v.intValue env
    let m ← Session.storedWord pos n
    let ws ← storedWords env pos vs
    .ok (wrapAddress m :: ws)

theorem storedWords_cons_eq_ok {env : Env} {pos : Position} {v : Lazy} {vs : List Lazy}
    {ws : List UInt16} (h : storedWords env pos (v :: vs) = .ok ws) :
    ∃ n ws', v.intValue env = .ok n ∧ storedWords env pos vs = .ok ws' ∧
      ws = wrapAddress n :: ws' := by
  obtain ⟨n, hv, h⟩ := bind_eq_ok.mp h
  obtain ⟨m, hm, h⟩ := bind_eq_ok.mp h
  obtain ⟨ws', hws', h⟩ := bind_eq_ok.mp h
  cases h
  rw [storedWord_eq_ok hm, Machine.wrapAddress_unsignedWord]
  exact ⟨n, ws', hv, hws', rfl⟩

theorem storedWords_cons {env : Env} {pos : Position} {v : Lazy} {vs : List Lazy} {n : Int64}
    {ws : List UInt16} (hv : v.intValue env = .ok n) (hlow : -65536 ≤ n.toInt)
    (hhigh : n.toInt < 65536) (hvs : storedWords env pos vs = .ok ws) :
    storedWords env pos (v :: vs) = .ok (wrapAddress n :: ws) := by
  rw [storedWords, hv, ok_bind, storedWord_of_range pos hlow hhigh, ok_bind, hvs, ok_bind,
    Machine.wrapAddress_unsignedWord]

theorem stored_byte {env : Env} {address v : Lazy} {pos : Position} {a b : Int64}
    (ha : address.intValue env = .ok a) (hv : v.value env = .ok (.int b)) (hb : IsByte b)
    (hlow : 0 ≤ a.toInt) (hhigh : a.toInt < 0o200000) (memory : Array UInt8) :
    stored env memory [⟨address, v, pos⟩] =
      .ok (overwrite memory a.toInt.toNat [byteOf b]) := by
  have hres : Write.resolved env ⟨address, v, pos⟩ = .ok ([b], a) := by
    rw [Write.resolved, hv, ok_bind, ha]
    rfl
  rw [stored, hres, ok_bind]
  change (store pos memory a [b] >>= fun memory => stored env memory []) = _
  rw [store_of_fits pos (by simpa using hb) memory hlow (by simp; omega)]
  rfl

theorem byteOf_ofNat (b : UInt8) : byteOf (Int64.ofNat b.toNat) = b := by
  have hb := b.toNat_lt
  rw [byteOf, Int64.toNatClampNeg_ofNat_of_lt (by omega), UInt8.ofNat_toNat]

theorem isByte_ofNat (b : UInt8) : IsByte (Int64.ofNat b.toNat) := by
  have hb := b.toNat_lt
  rw [IsByte, Int64.toInt_ofNat_of_lt (by omega)]
  omega

theorem emits_writeWord {env : Env} {s : Session} {p n m : Int64} {v : Lazy} {pos : Position}
    (hp : s.pc.intValue env = .ok p) (hv : v.intValue env = .ok n)
    (hm : Session.storedWord pos n = .ok m) (hlow : 0 ≤ p.toInt)
    (hhigh : p.toInt + 2 ≤ 0o200000) :
    Emits env p (bytesOfWord (wrapAddress m)) s (s.writeWord v pos) := by
  have hp1 : (s.pc.addInt 1).intValue env = .ok (p + 1) := by rw [Lazy.intValue_addInt, hp, ok_bind]
  have haddr : (p + 1).toInt = p.toInt + 1 := Machine.toInt_add_ofNat (n := 1) hlow (by omega)
  have hnext : (p + 1).toInt.toNat = p.toInt.toNat + [(wrapAddress n).toUInt8].length := by
    rw [haddr, List.length_singleton]
    omega
  have hmw := storedWord_eq_ok hm
  have hw : (v.mapInt (Session.storedWord pos)).intValue env = .ok m := by
    rw [Lazy.intValue_mapInt, hv, ok_bind, hm]
  have hl : ((v.mapInt (Session.storedWord pos)).mapInt Session.lowByte).value env =
      .ok (.int (Int64.ofNat (wrapAddress n).toUInt8.toNat)) := by
    rw [Lazy.value_mapInt, hw, ok_bind, Session.lowByte, ok_bind, hmw,
      Machine.unsignedWord_and_255]
  have hh : ((v.mapInt (Session.storedWord pos)).mapInt Session.highByte).value env =
      .ok (.int (Int64.ofNat (wrapAddress n >>> 8).toUInt8.toNat)) := by
    rw [Lazy.value_mapInt, hw, ok_bind, Session.highByte, ok_bind, hmw,
      Machine.unsignedWord_shiftRight_8]
  refine ⟨⟨[⟨s.pc, (v.mapInt (Session.storedWord pos)).mapInt Session.lowByte, pos⟩] ++
    [⟨s.pc.addInt 1, (v.mapInt (Session.storedWord pos)).mapInt Session.highByte, pos⟩],
    ?_, fun memory => ?_⟩, ?_, rfl⟩
  · simp [Session.writes, Session.writeWord]
  · rw [stored_append, stored_byte hp hl (isByte_ofNat _) hlow (by omega), ok_bind,
      stored_byte hp1 hh (isByte_ofNat _) (by omega) (by omega), byteOf_ofNat, byteOf_ofNat, hnext,
      overwrite_overwrite, hmw, Machine.wrapAddress_unsignedWord]
    rfl
  · change (s.pc.addInt 2).intValue env = _
    rw [Lazy.intValue_addInt, hp, ok_bind]
    rfl

/-- The words of values that may be stored, one after the other. -/
theorem emits_writeWords {env : Env} {pos : Position} {v : Lazy} {vs : List Lazy}
    {ws : List UInt16} {s : Session} {p : Int64} (hws : storedWords env pos (v :: vs) = .ok ws)
    (hp : s.pc.intValue env = .ok p) (hlow : 0 ≤ p.toInt)
    (hhigh : p.toInt + 2 * ws.length ≤ 0o200000) :
    Emits env p (wordsToBytes ws) s (s.writeWords (v :: vs) pos) := by
  induction vs generalizing v ws s p with
  | nil =>
    obtain ⟨n, hv, h⟩ := bind_eq_ok.mp hws
    obtain ⟨m, hm, h⟩ := bind_eq_ok.mp h
    cases h
    exact emits_writeWord hp hv hm hlow (by simpa using hhigh)
  | cons v' vs ih =>
    obtain ⟨n, hv, h⟩ := bind_eq_ok.mp hws
    obtain ⟨m, hm, h⟩ := bind_eq_ok.mp h
    obtain ⟨ws', hws', h⟩ := bind_eq_ok.mp h
    cases h
    rw [List.length_cons] at hhigh
    have hfirst := emits_writeWord (s := s) hp hv hm hlow (by omega)
    have hnext : (p + Int64.ofNat (bytesOfWord (wrapAddress m)).length).toInt = p.toInt + 2 :=
      Machine.toInt_add_ofNat (n := 2) hlow (by omega)
    exact hfirst.trans (ih hws' hfirst.counter (by omega) (by omega)) hlow
      (by change p.toInt + 2 < _; omega)

end Eleven.Assembly

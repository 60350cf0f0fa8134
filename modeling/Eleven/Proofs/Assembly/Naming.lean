import Eleven.Proofs.Assembly.Eager
import Eleven.Proofs.Assembly.Layout
import Eleven.Proofs.Source.NamingLines

/-! Operations in which a constant has been given a name ask for stores that do the same to
memory. -/
namespace Eleven.Assembly

open Eleven.Machine (Instruction)
open Eleven.Source (Naming Operand)

variable {c : Naming}

section Encoding

variable {i : Instruction} {pos pos' : Position} {o o' : Operand} {os os' : List Operand}
  {pc pc' : Lazy}

theorem matched_requireAddress (h : c.TurnsOperand o o') :
    Matched (fun _ _ => True) (requireAddress i pos o) (requireAddress i pos' o') := by
  unfold requireAddress
  rw [h.kind]
  split_ifs
  · exact .ok trivial
  · exact .error _ _

theorem matched_requireRegister (h : c.TurnsOperand o o') :
    Matched (fun _ _ => True) (requireRegister i pos o) (requireRegister i pos' o') := by
  unfold requireRegister
  rw [h.kind]
  split_ifs
  · exact .ok trivial
  · exact .error _ _

theorem matched_requireExpression (h : c.TurnsOperand o o') :
    Matched c.SameInt (requireExpression i pos o) (requireExpression i pos' o') := by
  have hvalue := h.value
  unfold requireExpression
  rw [h.kind]
  generalize o.value = v at hvalue ⊢
  generalize o'.value = v' at hvalue ⊢
  cases hvalue with
  | none => cases o.kind <;> exact .error _ _
  | some hv =>
    cases o.kind with
    | expression => exact .ok hv
    | _ => exact .error _ _

theorem field_eq (h : c.TurnsOperand o o') : o'.field = o.field := by
  rw [Operand.field, h.mode, h.register, Operand.field]

theorem sameInt_wordValue {w w' : UInt16} (h : w' = w) :
    c.SameInt (wordValue w) (wordValue w') := by
  rw [h]
  exact Lazy.sameInt_int _

/-- Only the report of a value that cannot be stored tells its place. -/
theorem matched_immediateWord (x : Int64) :
    Matched Eq (immediateWord i pos x) (immediateWord i pos' x) := by
  unfold immediateWord
  dsimp only
  split_ifs
  · exact .error _ _
  · exact .error _ _
  · exact .error _ _
  · exact .rfl

theorem matched_branchWord (x : Int64) :
    Matched Eq (branchWord i pos x) (branchWord i pos' x) := by
  unfold branchWord
  split_ifs
  · exact .error _ _
  · exact .error _ _
  · exact .rfl

theorem matched_sobWord (register x : Int64) :
    Matched Eq (sobWord i register pos x) (sobWord i register pos' x) := by
  unfold sobWord
  split_ifs
  · exact .error _ _
  · exact .error _ _
  · exact .rfl

theorem matched_firstWord (hos : List.Forall₂ c.TurnsOperand os os') (hpc : c.SameInt pc pc') :
    Matched c.SameInt (firstWord i os pc pos) (firstWord i os' pc' pos') := by
  unfold firstWord
  cases hos with
  | nil =>
    cases i.kind with
    | zero => exact .ok (Lazy.sameInt_int _)
    | _ => exact .error _ _
  | cons ho hos =>
    cases hos with
    | nil =>
      cases i.kind with
      | one =>
        refine (matched_requireAddress ho).bind fun _ _ _ => .ok (sameInt_wordValue ?_)
        rw [field_eq ho]
      | rts =>
        refine (matched_requireRegister ho).bind fun _ _ _ => .ok (sameInt_wordValue ?_)
        rw [ho.register]
      | immediate =>
        refine (matched_requireExpression ho).bind fun v v' hv => .ok ?_
        exact hv.mapInt matched_immediateWord
      | branch =>
        refine (matched_requireExpression ho).bind fun v v' hv => .ok ?_
        exact (hv.sub (hpc.addInt 2)).mapInt matched_branchWord
      | _ => exact .error _ _
    | cons ho₂ hos =>
      cases hos with
      | cons => cases i.kind <;> exact .error _ _
      | nil =>
        cases i.kind with
        | two =>
          refine (matched_requireAddress ho).bind fun _ _ _ =>
            (matched_requireAddress ho₂).bind fun _ _ _ => .ok (sameInt_wordValue ?_)
          rw [field_eq ho, field_eq ho₂]
        | register =>
          refine (matched_requireRegister ho).bind fun _ _ _ =>
            (matched_requireAddress ho₂).bind fun _ _ _ => .ok (sameInt_wordValue ?_)
          rw [ho.register, field_eq ho₂]
        | registerSource =>
          refine (matched_requireAddress ho).bind fun _ _ _ =>
            (matched_requireRegister ho₂).bind fun _ _ _ => .ok (sameInt_wordValue ?_)
          rw [field_eq ho, ho₂.register]
        | sob =>
          refine (matched_requireRegister ho).bind fun _ _ _ =>
            (matched_requireExpression ho₂).bind fun v v' hv => .ok ?_
          rw [ho.register]
          exact ((hpc.addInt 2).sub hv).mapInt (matched_sobWord _)
        | _ => exact .error _ _

theorem same_extraWords (hos : List.Forall₂ c.TurnsOperand os os') (hpc : c.SameInt pc pc')
    (count : Nat) :
    List.Forall₂ c.SameInt (extraWords pc count os) (extraWords pc' count os') := by
  induction hos generalizing count with
  | nil => exact .nil
  | @cons o o' os os' ho hos ih =>
    have hvalue := ho.value
    unfold extraWords
    rw [ho.kind, ho.relative]
    generalize o.value = v at hvalue ⊢
    generalize o'.value = v' at hvalue ⊢
    cases hvalue with
    | none => cases o.kind <;> exact ih count
    | some hv =>
      cases o.kind with
      | address =>
        refine .cons ?_ (ih (count + 1))
        split_ifs
        · exact hv.sub (hpc.addInt _)
        · exact hv
      | _ => exact ih count

theorem matched_encode (hos : List.Forall₂ c.TurnsOperand os os') (hpc : c.SameInt pc pc') :
    Matched (List.Forall₂ c.SameInt) (encode i os pc pos) (encode i os' pc' pos') := by
  unfold encode
  rw [hos.length_eq]
  split_ifs
  · exact .error _ _
  · exact (matched_firstWord hos hpc).bind fun first first' hfirst =>
      .ok (.cons hfirst (same_extraWords hos hpc 0))

end Encoding

/-- Stores that do the same to memory, or both cannot be carried out. -/
def SameWrite (c : Naming) (w w' : Write) : Prop :=
  ∀ ⦃env env' : Env⦄, Env.Names c.key c.value env env' → ∀ memory : Array UInt8,
    memory.size ≤ 0o200000 → Matched Eq (stored env memory [w]) (stored env' memory [w'])

section Stores

variable {pos pos' : Position} {a a' v v' : Lazy}

theorem matched_storeFrom (memory : Array UInt8) (address : Nat) (bytes : List Int64) :
    Matched Eq (storeFrom pos memory address bytes) (storeFrom pos' memory address bytes) := by
  induction bytes generalizing memory address with
  | nil => exact .rfl
  | cons b bytes ih =>
    unfold storeFrom
    split_ifs
    · exact .error _ _
    · exact ih _ _
    · exact .error _ _

theorem matched_store (memory : Array UInt8) (address : Int64) (bytes : List Int64) :
    Matched Eq (store pos memory address bytes) (store pos' memory address bytes) := by
  unfold store
  dsimp only
  split_ifs
  · exact .error _ _
  · exact matched_storeFrom _ _ _

theorem sameWrite_of_payload (ha : c.SameInt a a')
    (hv : ∀ ⦃env env' : Env⦄, Env.Names c.key c.value env env' →
      Matched Eq (v.value env >>= payload) (v'.value env' >>= payload)) :
    SameWrite c ⟨a, v, pos⟩ ⟨a', v', pos'⟩ := by
  intro env env' henv memory hsize
  have hresolved : Matched Eq (Write.resolved env ⟨a, v, pos⟩) (Write.resolved env' ⟨a', v', pos'⟩) := by
    unfold Write.resolved
    dsimp only
    refine Matched.mapError ?_ _ _
    rw [← bind_assoc, ← bind_assoc]
    exact (hv henv).bindEq fun bytes => (ha henv).bindEq fun address => .rfl
  unfold stored
  refine hresolved.bindEq ?_
  rintro ⟨bytes, address⟩
  exact (matched_store memory address bytes).bindEq fun memory => .rfl

/-- The byte of an integer. -/
theorem sameWrite_mapInt (ha : c.SameInt a a') (hv : c.SameInt v v')
    {f g : Int64 → Except Failure Int64} (hfg : ∀ x, Matched Eq (f x) (g x)) :
    SameWrite c ⟨a, v.mapInt f, pos⟩ ⟨a', v'.mapInt g, pos'⟩ := by
  have hpayload : ∀ (w : Lazy) (f : Int64 → Except Failure Int64) (env : Env),
      ((w.mapInt f).value env >>= payload) = ((w.mapInt f).intValue env >>= fun m => .ok [m]) := by
    intro w f env
    rw [Lazy.value_mapInt, Lazy.intValue_mapInt]
    simp only [bind_assoc]
    rfl
  refine sameWrite_of_payload ha fun env env' henv => ?_
  rw [hpayload, hpayload]
  exact (hv.mapInt hfg henv).bindEq fun m => .rfl

theorem sameWrite_list (ha : c.SameInt a a') (hv : Lazy.SameList c.key c.value v v') :
    SameWrite c ⟨a, v, pos⟩ ⟨a', v', pos'⟩ := by
  refine sameWrite_of_payload ha fun env env' henv => (hv henv).bind ?_
  rintro _ _ ⟨xs, rfl, rfl⟩
  exact .rfl

theorem size_stored_le {env : Env} {ws : List Write} {memory memory' : Array UInt8}
    (hsize : memory.size ≤ 0o200000) (h : stored env memory ws = .ok memory') :
    memory'.size ≤ 0o200000 := by
  induction ws generalizing memory with
  | nil =>
    cases h
    exact hsize
  | cons w ws ih =>
    obtain ⟨⟨bytes, address⟩, -, h⟩ := bind_eq_ok.mp h
    obtain ⟨m, hstore, h⟩ := bind_eq_ok.mp h
    obtain ⟨hlow, hhigh, -, rfl⟩ := store_eq_ok hsize hstore
    refine ih ?_ h
    rw [size_overwrite, List.length_map]
    omega

/-- Logs of stores that do the same leave the same memory. -/
theorem matched_stored {ws ws' : List Write} (h : List.Forall₂ (SameWrite c) ws ws')
    {env env' : Env} (henv : Env.Names c.key c.value env env') {memory : Array UInt8}
    (hsize : memory.size ≤ 0o200000) :
    Matched Eq (stored env memory ws) (stored env' memory ws') := by
  induction h generalizing memory with
  | nil => exact .rfl
  | @cons w w' ws ws' hw hws ih =>
    have hone : ∀ (env : Env) (w : Write) (ws : List Write), stored env memory (w :: ws) =
        (stored env memory [w] >>= fun memory => stored env memory ws) :=
      fun env w ws => stored_append env memory [w] ws
    rw [hone env w ws, hone env' w' ws']
    have hfirst := (hw henv memory hsize).and_left fun m hm => size_stored_le hsize hm
    refine hfirst.bind ?_
    rintro m _ ⟨rfl, hm⟩
    exact ih hm

end Stores

section Padding

variable {env : Env} {pc k : Lazy} {p m : Int64}

/-- Zeros up to the next multiple, where they fit into an address space. -/
theorem value_lazyPadding (hp : pc.intValue env = .ok p) (hk : k.intValue env = .ok m)
    (hlow : 0 ≤ p.toInt) (hm : 0 < m.toInt) (hroom : (knownPadding p m).length ≤ maxRepeat) :
    (lazyPadding pc k).value env = .ok (.list (knownPadding p m)) := by
  have hzero : m ≠ 0 := by
    rintro rfl
    exact absurd hm (by decide)
  have hrem : ¬ p % m < 0 := by
    rw [Int64.lt_iff_toInt_lt, Int64.toInt_mod]
    exact Int.not_lt.mpr (Int.tmod_nonneg _ hlow)
  have hmod : (pc.mod k).intValue env = .ok (p % m) := by
    rw [Lazy.mod, Lazy.intValue, Lazy.value_binary, hp, ok_bind, hk, ok_bind, BinaryOp.apply,
      if_neg hzero, if_neg fun h => hrem h.1]
    rfl
  have hcond : ((pc.mod k).equal (.int 0)).value env = .ok (.bool (p % m == 0)) := by
    rw [Lazy.equal, Lazy.value_binary, hmod, ok_bind]
    rfl
  rw [lazyPadding, Lazy.value_select, hcond, ok_bind, Datum.expectBool, ok_bind]
  unfold knownPadding at hroom ⊢
  by_cases hz : p % m = 0
  · simp only [hz, BEq.rfl, if_true]
    rfl
  · have hz' : (p % m == 0) = false := by simpa using hz
    have hneg : ¬ m - p % m < 0 := by
      have hnonneg := Int.tmod_nonneg m.toInt hlow
      have hlt := Int.tmod_lt_of_pos p.toInt hm
      have hhigh := m.toInt_lt
      rw [Int64.lt_iff_toInt_lt, Int64.toInt_sub, Int64.toInt_mod,
        Int.bmod_eq_of_le (by omega) (by omega)]
      change ¬ _ < 0
      omega
    rw [if_neg hz, List.length_replicate] at hroom
    have hzeros : repeatPattern (m - p % m) [0] =
        .ok (.list (List.replicate (m - p % m).toNatClampNeg 0)) := by
      dsimp only [repeatPattern]
      rw [List.flatten_replicate_singleton, if_neg (by simpa using hroom)]
    simp only [hz', hz, Bool.false_eq_true, if_false]
    rw [Lazy.value_repeated, Lazy.intValue_sub, hk, ok_bind, hmod, ok_bind, ok_bind, if_neg hneg]
    change (repeatPattern (m - p % m) [0] >>= _) = _
    rw [hzeros]
    rfl

/-- A known value and one that waits pad alike as far as memory reaches. -/
theorem value_padding_of_room (hp : pc.intValue env = .ok p) (hk : k.intValue env = .ok m)
    (hlow : 0 ≤ p.toInt) (hm : 0 < m.toInt) (hroom : (knownPadding p m).length ≤ maxRepeat) :
    (padding pc k).value env = .ok (.list (knownPadding p m)) := by
  unfold padding
  split
  · rename_i p' m' hpc hk'
    obtain rfl := Lazy.intConstant?_eq_some hpc
    obtain rfl := Lazy.intConstant?_eq_some hk'
    cases hp
    cases hk
    rfl
  · exact value_lazyPadding hp hk hlow hm hroom

/-- Padding that is stored lies in memory as a whole. -/
theorem padding_of_stored (hp : pc.intValue env = .ok p) (hk : k.intValue env = .ok m)
    {memory memory' : Array UInt8} (hsize : memory.size ≤ 0o200000) {pos : Position}
    (h : stored env memory [⟨pc, padding pc k, pos⟩] = .ok memory') :
    0 ≤ p.toInt ∧ (knownPadding p m).length ≤ maxRepeat := by
  obtain ⟨⟨bytes, address⟩, hresolved, h⟩ := bind_eq_ok.mp h
  obtain ⟨_, hstore, -⟩ := bind_eq_ok.mp h
  obtain ⟨hlow, hhigh, -, -⟩ := store_eq_ok hsize hstore
  rw [Write.resolved, mapError_eq_ok] at hresolved
  obtain ⟨d, hd, hresolved⟩ := bind_eq_ok.mp hresolved
  obtain ⟨xs, hxs, hresolved⟩ := bind_eq_ok.mp hresolved
  obtain ⟨q, hq, hresolved⟩ := bind_eq_ok.mp hresolved
  cases hresolved
  rw [hp] at hq
  cases hq
  obtain ⟨m', hm', rfl⟩ := value_padding hp hlow hd
  rw [hk] at hm'
  cases hm'
  cases hxs
  refine ⟨hlow, ?_⟩
  rw [maxRepeat]
  omega

end Padding

end Eleven.Assembly

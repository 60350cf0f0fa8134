import Eleven.Proofs.Assembly.Backend
import Eleven.Proofs.Assembly.Naming

/-! Sessions that assemble a source and the same source with a name for a constant. They stay
parallel, unless both have asked for a store that no memory can take. -/
namespace Eleven.Assembly

open Eleven.Source (Naming Header Operation Operand Command)

variable {c : Naming}

/-- Sessions that differ in the constant and its name only. -/
structure Parallel (c : Naming) (s s' : Session) : Prop where
  symbols : SymbolTable.Names c.key c.value s.symbols s'.symbols
  pending : List.Forall₂ (SameWrite c) s.pending s'.pending
  pc : c.SameInt s.pc s'.pc
  link : c.SameInt s.link s'.link
  project : s'.project = s.project
  koi8r : s'.koi8r = s.koi8r

/-- What commands do to a session: stores and definitions are added, and none is taken back. -/
structure Extends (s u : Session) : Prop where
  quiet : u.symbols.Quiet
  pending : s.pending <:+ u.pending
  bindings : ∀ name v, s.symbols.binding? name = some v → u.symbols.binding? name = some v

/-- The stores of the session cannot be carried out, whatever the symbols come to that are not
integers from the start. -/
def Doomed (s : Session) : Prop :=
  ∀ env : Env, (∀ name m, s.symbols.binding? name = some (.int m) → env name = .ok (.int m)) →
    ∀ memory, stored env #[] s.writes ≠ .ok memory

section Extends

variable {s u w : Session}

theorem Extends.refl (hq : s.symbols.Quiet) : Extends s s :=
  ⟨hq, List.suffix_refl _, fun _ _ h => h⟩

theorem Extends.trans (h : Extends s u) (h' : Extends u w) : Extends s w :=
  ⟨h'.quiet, h.pending.trans h'.pending, fun name v hv => h'.bindings name v (h.bindings name v hv)⟩

theorem extends_of_symbols (hq : s.symbols.Quiet) (hsymbols : u.symbols = s.symbols)
    (hpending : s.pending <:+ u.pending) : Extends s u := by
  refine ⟨hsymbols ▸ hq, hpending, fun name v hv => ?_⟩
  rw [hsymbols]
  exact hv

theorem extends_define {name : String} {v : Lazy} {pos : Position} (hq : s.symbols.Quiet)
    (h : s.define name v pos = .ok u) : Extends s u := by
  obtain ⟨t, ht, h⟩ := bind_eq_ok.mp h
  cases h
  refine ⟨hq.define ht, List.suffix_refl _, fun m w hw => ?_⟩
  exact SymbolTable.binding?_define_of_some ht hw

theorem extends_setSymbols {t : SymbolTable} (hq : t.Quiet) (hg : s.symbols.Grows t) :
    Extends s (s.setSymbols t) := by
  refine ⟨hq, List.suffix_refl _, fun name v hv => ?_⟩
  change t.binding? name = some v
  rw [SymbolTable.binding?_eq_of_definitions hg.definitions]
  exact hv

theorem extends_writeList (v : Lazy) (pos : Position) (hq : s.symbols.Quiet) :
    Extends s (s.writeList v pos) := extends_of_symbols hq rfl (List.suffix_cons _ _)

theorem extends_writeBytes (vs : List Lazy) (pos : Position) (hq : s.symbols.Quiet) :
    Extends s (s.writeBytes vs pos) := by
  induction vs generalizing s with
  | nil => exact .refl hq
  | cons v vs ih =>
    have hone : Extends s (s.writeByte v pos) :=
      extends_of_symbols hq rfl (List.suffix_cons _ _)
    exact hone.trans (ih hone.quiet)

theorem extends_writeWords (vs : List Lazy) (pos : Position) (hq : s.symbols.Quiet) :
    Extends s (s.writeWords vs pos) := by
  induction vs generalizing s with
  | nil => exact .refl hq
  | cons v vs ih =>
    have hone : Extends s (s.writeWord v pos) :=
      extends_of_symbols hq rfl ((List.suffix_cons _ _).trans (List.suffix_cons _ _))
    exact hone.trans (ih hone.quiet)

theorem extends_writeInstruction (h : Header) (os : List Source.Operand) (hq : s.symbols.Quiet)
    (hu : writeInstruction s h os = .ok u) : Extends s u := by
  unfold writeInstruction at hu
  split at hu
  · cases hu
  · obtain ⟨words, -, hu⟩ := bind_eq_ok.mp hu
    cases hu
    exact extends_writeWords _ _ hq

theorem extends_writeText {pos : Position} {text : String} {ending : List Int64}
    (hq : s.symbols.Quiet) (hu : writeText s pos text ending = .ok u) : Extends s u := by
  unfold writeText at hu
  split at hu
  · cases hu
    exact extends_writeList _ _ hq
  · cases hu

theorem extends_insertFile {fs : Files.FileSystem} {pos : Position} {name : String}
    (hq : s.symbols.Quiet) (hu : insertFile fs s pos name = .ok u) : Extends s u := by
  unfold insertFile at hu
  dsimp only at hu
  split at hu
  · cases hu
    exact extends_writeList _ _ hq
  · cases hu

theorem extends_apply (fs : Files.FileSystem) (h : Header) (o : Operation) (hq : s.symbols.Quiet)
    (hu : apply fs h o s = .ok u) : Extends s u := by
  have hself : Except.ok s = (Except.ok u : Except Failure Session) → Extends s u := by
    rintro ⟨⟩
    exact .refl hq
  unfold apply at hu
  cases o with
  | nothing => exact hself hu
  | thisMachine => exact hself hu
  | decimalNumbers => exact hself hu
  | endOfSource => exact hself hu
  | includeFile name => exact hself hu
  | instruction os => exact extends_writeInstruction h os hq hu
  | link v =>
    cases hu
    exact extends_of_symbols hq rfl (List.suffix_refl _)
  | otherMachine => cases hu
  | dialect name =>
    dsimp only at hu
    split_ifs at hu
    exact hself hu
  | bytes vs =>
    cases hu
    exact extends_writeBytes _ _ hq
  | words vs =>
    cases hu
    exact extends_writeWords _ _ hq
  | reserveBytes n =>
    cases hu
    exact extends_writeList _ _ hq
  | reserveWords n =>
    cases hu
    exact extends_writeList _ _ hq
  | even =>
    cases hu
    exact extends_writeList _ _ hq
  | align v =>
    cases hu
    exact extends_writeList _ _ hq
  | ascii text => exact extends_writeText hq hu
  | asciz text => exact extends_writeText hq hu
  | makeArtifact a =>
    cases hu
    exact extends_of_symbols hq rfl (List.suffix_refl _)
  | koi8r =>
    cases hu
    exact extends_of_symbols hq rfl (List.suffix_refl _)
  | insertFile name => exact extends_insertFile hq hu
  | equate name v => exact extends_define hq hu

end Extends

section Doomed

variable {s u : Session}

/-- More stores and more definitions do not help. -/
theorem Doomed.of_extends (h : Doomed s) (he : Extends s u) : Doomed u := by
  intro env henv memory hstored
  obtain ⟨new, hnew⟩ := he.pending
  have hwrites : u.writes = s.writes ++ new.reverse := by
    rw [Session.writes, ← hnew, List.reverse_append, Session.writes]
  rw [hwrites, stored_append] at hstored
  obtain ⟨m, hm, -⟩ := bind_eq_ok.mp hstored
  exact h env (fun name k hk => henv name k (he.bindings name _ hk)) m hm

/-- One store that cannot be carried out is enough. -/
theorem doomed_of_write {w : Write} (hpending : u.pending = w :: s.pending)
    (hw : ∀ env : Env, (∀ name m, u.symbols.binding? name = some (.int m) →
      env name = .ok (.int m)) → ∀ memory : Array UInt8, memory.size ≤ 0o200000 →
      ∀ memory', stored env memory [w] ≠ .ok memory') : Doomed u := by
  intro env henv memory hstored
  have hwrites : u.writes = s.writes ++ [w] := by
    rw [Session.writes, hpending, List.reverse_cons, Session.writes]
  rw [hwrites, stored_append] at hstored
  obtain ⟨m, hm, hlast⟩ := bind_eq_ok.mp hstored
  have hsize : m.size ≤ 0o200000 := size_stored_le (by simp) hm
  exact hw env henv m hsize memory hlast

/-- A session that is doomed cannot be linked. -/
theorem Doomed.linkImage (h : Doomed s) (hq : s.symbols.Quiet) (image : Image) (u : Session) :
    Session.linkImage.run s ≠ (.ok image, u) := by
  intro hlink
  obtain ⟨t, memory, hall, hstored, -⟩ := linkImage_eq_ok hq hlink
  refine h t.results (fun name m hm => ?_) memory hstored
  rw [SymbolTable.results_eq_env hq hall]
  have hlook := hq.outcome_lookup_int hm
  rwa [hq.outcome_lookup] at hlook

end Doomed

theorem read_noFiles (path : String) : ∃ f, noFiles.read path = .error f := by
  change ∃ f, Files.Collection.read ⟨[]⟩ path = .error f
  unfold Files.Collection.read
  dsimp only
  split_ifs
  · exact ⟨_, rfl⟩
  · exact ⟨_, rfl⟩
  · exact ⟨_, rfl⟩

section Alignment

variable {v v' : Lazy} {pos pos' : Position}

theorem same_checkedModulus (h : c.SameInt v v') :
    c.SameInt (checkedModulus v pos) (checkedModulus v' pos') := by
  have hcheck : ∀ x, Matched Eq (alignmentCheck pos x) (alignmentCheck pos' x) := by
    intro x
    unfold alignmentCheck
    split_ifs
    · exact .error _ _
    · exact .rfl
  intro env env' henv
  rw [intValue_checkedModulus, intValue_checkedModulus]
  exact (h henv).bindEq hcheck

theorem pos_of_checkedModulus {m : Int64} (h : (checkedModulus v pos).intConstant? = some m) :
    0 < m.toInt := by
  unfold checkedModulus at h
  split at h
  · rename_i k hk
    split_ifs at h with hpos
    · rw [hk] at h
      cases h
      exact Int64.lt_iff_toInt_lt.mp hpos
    · cases h
  · cases h

theorem sameList_lazyPadding {pc pc' : Lazy} (hpc : c.SameInt pc pc') (hv : c.SameInt v v') :
    Lazy.SameList c.key c.value (lazyPadding pc v) (lazyPadding pc' v') := by
  have hmod := hpc.mod hv
  intro env env' henv
  rw [lazyPadding, lazyPadding, Lazy.value_select, Lazy.value_select, Lazy.equal, Lazy.equal]
  refine (hmod.value_binary (Lazy.sameInt_int 0) .equal henv).bindEq fun d => ?_
  refine Matched.bindEq .rfl fun b => ?_
  cases b with
  | true => exact .ok ⟨[], rfl, rfl⟩
  | false =>
    refine ((hv.sub hmod).zeros henv).bind ?_
    rintro _ _ ⟨xs, rfl, rfl⟩
    exact .ok ⟨xs, rfl, rfl⟩

end Alignment

namespace Parallel

variable {s s' : Session} (h : Parallel c s s') {pos pos' : Position}
include h

theorem define {name : String} (hname : name ≠ c.key) {v v' : Lazy} (hv : c.SameInt v v') :
    Matched (Parallel c) (s.define name v pos) (s'.define name v' pos') := by
  unfold Session.define
  refine (h.symbols.define hname hv pos pos').bind fun t t' ht => .ok ?_
  exact ⟨ht, h.pending, h.pc, h.link, h.project, h.koi8r⟩

theorem setSymbols {t t' : SymbolTable} (ht : SymbolTable.Names c.key c.value t t') :
    Parallel c (s.setSymbols t) (s'.setSymbols t') :=
  ⟨ht, h.pending, h.pc, h.link, h.project, h.koi8r⟩

theorem writeList {v v' : Lazy} (hv : Lazy.SameList c.key c.value v v') :
    Parallel c (s.writeList v pos) (s'.writeList v' pos') :=
  ⟨h.symbols, .cons (sameWrite_list h.pc hv) h.pending, h.pc.add hv.length, h.link, h.project,
    h.koi8r⟩

theorem writeByte {v v' : Lazy} (hv : c.SameInt v v') :
    Parallel c (s.writeByte v pos) (s'.writeByte v' pos') := by
  have hbyte : ∀ x, Matched Eq (Session.storedByte pos x) (Session.storedByte pos' x) := by
    intro x
    unfold Session.storedByte
    split_ifs
    · exact .error _ _
    · exact .error _ _
    · exact .rfl
    · exact .rfl
  exact ⟨h.symbols, .cons (sameWrite_mapInt h.pc hv hbyte) h.pending, h.pc.addInt 1, h.link,
    h.project, h.koi8r⟩

theorem writeWord {v v' : Lazy} (hv : c.SameInt v v') :
    Parallel c (s.writeWord v pos) (s'.writeWord v' pos') := by
  have hword : ∀ x, Matched Eq (Session.storedWord pos x) (Session.storedWord pos' x) := by
    intro x
    unfold Session.storedWord
    split_ifs
    · exact .error _ _
    · exact .error _ _
    · exact .rfl
    · exact .rfl
  have hw := hv.mapInt hword
  refine ⟨h.symbols, .cons ?_ (.cons ?_ h.pending), h.pc.addInt 2, h.link, h.project, h.koi8r⟩
  · exact sameWrite_mapInt (h.pc.addInt 1) hw fun _ => .rfl
  · exact sameWrite_mapInt h.pc hw fun _ => .rfl

omit h in
theorem writeBytes {vs vs' : List Lazy} (hvs : List.Forall₂ c.SameInt vs vs') {s s' : Session}
    (h : Parallel c s s') : Parallel c (s.writeBytes vs pos) (s'.writeBytes vs' pos') := by
  induction hvs generalizing s s' with
  | nil => exact h
  | cons hv _ ih => exact ih (h.writeByte hv)

omit h in
theorem writeWords {vs vs' : List Lazy} (hvs : List.Forall₂ c.SameInt vs vs') {s s' : Session}
    (h : Parallel c s s') : Parallel c (s.writeWords vs pos) (s'.writeWords vs' pos') := by
  induction hvs generalizing s s' with
  | nil => exact h
  | cons hv _ ih => exact ih (h.writeWord hv)

theorem writeText (text : String) (ending : List Int64) :
    Matched (Parallel c) (Assembly.writeText s pos text ending)
      (Assembly.writeText s' pos' text ending) := by
  unfold Assembly.writeText
  rw [h.koi8r]
  cases textBytes s.koi8r text with
  | error p => exact .error _ _
  | ok bs => exact .ok (h.writeList (Lazy.sameList_list _))

/-- Padding whose size is known on one side only. It is the same where it fits into memory, and
where it does not neither session can be linked. -/
theorem writeKnownPadding {k k' : Lazy} {p m : Int64} (hm : 0 < m.toInt)
    (hknown : ∀ env, s.pc.intValue env = .ok p ∧ k.intValue env = .ok m)
    (hknown' : ∀ env : Env, env c.key = .ok (.int c.value) →
      s'.pc.intValue env = .ok p ∧ k'.intValue env = .ok m) :
    Parallel c (s.writeList (padding s.pc k) pos) (s'.writeList (padding s'.pc k') pos') ∨
      Doomed (s.writeList (padding s.pc k) pos) ∧ Doomed (s'.writeList (padding s'.pc k') pos') := by
  by_cases hroom : 0 ≤ p.toInt ∧ (knownPadding p m).length ≤ maxRepeat
  · left
    have hvalue : ∀ env, (padding s.pc k).value env = .ok (.list (knownPadding p m)) := by
      intro env
      obtain ⟨hp, hk⟩ := hknown env
      exact value_padding_of_room hp hk hroom.1 hm hroom.2
    have hvalue' : ∀ env : Env, env c.key = .ok (.int c.value) →
        (padding s'.pc k').value env = .ok (.list (knownPadding p m)) := by
      intro env henv
      obtain ⟨hp, hk⟩ := hknown' env henv
      exact value_padding_of_room hp hk hroom.1 hm hroom.2
    exact h.writeList (.of_value hvalue hvalue')
  · right
    constructor
    · refine doomed_of_write rfl fun env _ memory hsize memory' hstored => hroom ?_
      obtain ⟨hp, hk⟩ := hknown env
      exact padding_of_stored hp hk hsize hstored
    · refine doomed_of_write rfl fun env henv memory hsize memory' hstored => hroom ?_
      obtain ⟨hp, hk⟩ := hknown' env (henv c.key c.value h.symbols.named)
      exact padding_of_stored hp hk hsize hstored

theorem writePadding {k k' : Lazy} (hk : c.SameInt k k')
    (hpos : ∀ m, k.intConstant? = some m → 0 < m.toInt)
    (hpos' : ∀ m, k'.intConstant? = some m → 0 < m.toInt) :
    Parallel c (s.writeList (padding s.pc k) pos) (s'.writeList (padding s'.pc k') pos') ∨
      Doomed (s.writeList (padding s.pc k) pos) ∧ Doomed (s'.writeList (padding s'.pc k') pos') := by
  have hpc := h.pc
  by_cases hleft : ∃ p m, s.pc.intConstant? = some p ∧ k.intConstant? = some m
  · obtain ⟨p, m, hp, hm⟩ := hleft
    rw [Lazy.intConstant?_eq_some hp] at hpc
    rw [Lazy.intConstant?_eq_some hm] at hk
    have hknown : ∀ env, s.pc.intValue env = .ok p ∧ k.intValue env = .ok m := by
      intro env
      rw [Lazy.intConstant?_eq_some hp, Lazy.intConstant?_eq_some hm]
      exact ⟨rfl, rfl⟩
    refine h.writeKnownPadding (hpos m hm) hknown fun env henv => ?_
    exact ⟨hpc.intValue_of_left henv, hk.intValue_of_left henv⟩
  · by_cases hright : ∃ p m, s'.pc.intConstant? = some p ∧ k'.intConstant? = some m
    · obtain ⟨p, m, hp, hm⟩ := hright
      rw [Lazy.intConstant?_eq_some hp] at hpc
      rw [Lazy.intConstant?_eq_some hm] at hk
      have hknown : ∀ env, s.pc.intValue env = .ok p ∧ k.intValue env = .ok m :=
        fun env => ⟨hpc.intValue_of_right env, hk.intValue_of_right env⟩
      refine h.writeKnownPadding (hpos' m hm) hknown fun env _ => ?_
      rw [Lazy.intConstant?_eq_some hp, Lazy.intConstant?_eq_some hm]
      exact ⟨rfl, rfl⟩
    · left
      have hlazy : ∀ {a k : Lazy}, (¬ ∃ p m, a.intConstant? = some p ∧ k.intConstant? = some m) →
          padding a k = lazyPadding a k := by
        intro a k hnot
        unfold padding
        split
        · rename_i p m hp hm
          exact absurd ⟨p, m, hp, hm⟩ hnot
        · rfl
      rw [hlazy hleft, hlazy hright]
      exact h.writeList (sameList_lazyPadding hpc hk)

/-- A step of parallel sessions. -/
theorem apply {head head' : Header} (hhead : c.TurnsHeader head head') {o o' : Operation}
    (ho : c.TurnsOperation o o') :
    Matched (fun u u' => Parallel c u u' ∨ Doomed u ∧ Doomed u') (apply noFiles head o s)
      (apply noFiles head' o' s') := by
  have hself : Matched (fun u u' => Parallel c u u' ∨ Doomed u ∧ Doomed u')
      (Except.ok s : Except Failure Session) (Except.ok s' : Except Failure Session) := .ok (.inl h)
  unfold Assembly.apply
  cases ho with
  | instruction hos =>
    simp only [writeInstruction, hhead.mnemonic]
    cases Machine.Instruction.ofName? head.mnemonic with
    | none => exact .error _ _
    | some i =>
      refine (matched_encode hos h.pc).bind fun vs vs' hvs => .ok (.inl ?_)
      exact writeWords hvs h
  | link hv =>
    refine .ok (.inl ⟨h.symbols, h.pending, hv, ?_, h.project, h.koi8r⟩)
    dsimp only
    rw [h.project]
    split_ifs
    · exact h.link
    · exact hv
  | bytes hvs => exact .ok (.inl (writeBytes hvs h))
  | words hvs => exact .ok (.inl (writeWords hvs h))
  | reserveBytes hv => exact .ok (.inl (h.writeList hv.zeros))
  | reserveWords hv => exact .ok (.inl (h.writeList (hv.mul (Lazy.sameInt_int 2)).zeros))
  | align hv =>
    refine .ok (h.writePadding (same_checkedModulus hv) ?_ ?_)
    · exact fun m hm => pos_of_checkedModulus hm
    · exact fun m hm => pos_of_checkedModulus hm
  | equate hname hv => exact (h.define hname hv).imp fun _ _ => .inl
  | plain hplain =>
    cases o with
    | nothing => exact hself
    | thisMachine => exact hself
    | decimalNumbers => exact hself
    | endOfSource => exact hself
    | includeFile name => exact hself
    | otherMachine => exact .error _ _
    | dialect name =>
      dsimp only
      split_ifs
      · exact hself
      · exact .error _ _
    | even =>
      refine .ok (h.writePadding (Lazy.sameInt_int 2) ?_ ?_)
      · rintro _ ⟨⟩
        decide
      · rintro _ ⟨⟩
        decide
    | ascii text => exact (h.writeText text []).imp fun _ _ => .inl
    | asciz text => exact (h.writeText text [0]).imp fun _ _ => .inl
    | makeArtifact a =>
      exact .ok (.inl ⟨h.symbols, h.pending, h.pc, h.link, h.project, h.koi8r⟩)
    | koi8r => exact .ok (.inl ⟨h.symbols, h.pending, h.pc, h.link, h.project, rfl⟩)
    | insertFile name =>
      obtain ⟨f, hf⟩ := read_noFiles (Path.resolve head.position.file name)
      obtain ⟨f', hf'⟩ := read_noFiles (Path.resolve head'.position.file name)
      dsimp only [insertFile]
      rw [hf, hf']
      exact .error _ _
    | _ => cases hplain

end Parallel

end Eleven.Assembly

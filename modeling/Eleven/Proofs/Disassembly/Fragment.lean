import Eleven.Assembly.Image
import Eleven.Proofs.Disassembly.Rebuilding
import Eleven.Proofs.Lazy.Table

/-! Pieces of source text, and what assembling them adds to a session. -/
namespace Eleven.Disassembly

open Eleven.Assembly (Session Write stored overwrite runSource)
open Eleven.Files (FileSystem)
open Eleven.Source (Command)

/-- Where the line leads if it is a branch and addresses did not wrap. -/
def Line.branchTarget? (l : Line) : Option Int :=
  match l.words with
  | [] => none
  | w :: _ => Disassembly.branchTarget? l.kind l.address w

/-- The line does not lead out of the address space. -/
def Line.StaysInside (l : Line) : Prop :=
  ∀ t ∈ l.branchTarget?, 0 ≤ t ∧ t < Machine.addressSpace

instance (l : Line) : Decidable l.StaysInside :=
  inferInstanceAs (Decidable (∀ t ∈ l.branchTarget?, 0 ≤ t ∧ t < Machine.addressSpace))

/-- The name of a label at an address. -/
def nameOf (d : Nat × Label) : String := labelName (Int64.ofNat d.1) d.2

/-- The second table is the first one with labels defined, each with its address. -/
def Defines : List (Nat × Label) → SymbolTable → SymbolTable → Prop
  | [], t, t' => t' = t
  | d :: ds, t, t' =>
    ∃ pos u, t.define (nameOf d) (.int (Int64.ofNat d.1)) pos = .ok u ∧ Defines ds u t'

/-- Labels that can be defined one after the other. -/
structure Fresh (ds : List (Nat × Label)) (t : SymbolTable) : Prop where
  distinct : (ds.map nameOf).Nodup
  undefined : ∀ d ∈ ds, t.find? (nameOf d) = none

section Symbols

variable {t t' : SymbolTable} {ds ds' : List (Nat × Label)}

theorem Defines.append {t'' : SymbolTable} (h : Defines ds t t') (h' : Defines ds' t' t'') :
    Defines (ds ++ ds') t t'' := by
  induction ds generalizing t with
  | nil =>
    cases h
    exact h'
  | cons d ds ih =>
    obtain ⟨pos, u, hu, h⟩ := h
    exact ⟨pos, u, hu, ih h⟩

theorem Defines.find?_eq_none (h : Defines ds t t') {name : String} (hn : name ∉ ds.map nameOf)
    (ht : t.find? name = none) : t'.find? name = none := by
  induction ds generalizing t with
  | nil =>
    cases h
    exact ht
  | cons d ds ih =>
    obtain ⟨pos, u, hu, h⟩ := h
    simp only [List.map_cons, List.mem_cons, not_or] at hn
    refine ih h hn.2 ?_
    obtain ⟨hfind, rfl⟩ := SymbolTable.define_eq_ok hu
    rw [SymbolTable.find?_push _ hfind, if_neg hn.1, ht]

theorem Fresh.left (h : Fresh (ds ++ ds') t) : Fresh ds t := by
  have hd := h.distinct
  rw [List.map_append, List.nodup_append] at hd
  exact ⟨hd.1, fun d hm => h.undefined d (List.mem_append_left _ hm)⟩

theorem Fresh.right (h : Fresh (ds ++ ds') t) (ht : Defines ds t t') : Fresh ds' t' := by
  have hd := h.distinct
  rw [List.map_append, List.nodup_append] at hd
  refine ⟨hd.2.1, fun d hm => ht.find?_eq_none ?_ (h.undefined d (List.mem_append_right _ hm))⟩
  intro hmem
  exact hd.2.2 _ hmem _ (List.mem_map_of_mem hm) rfl

end Symbols

/-- Memory with bytes at an address. No bytes at all change nothing, wherever they are put. -/
def placed (memory : Array UInt8) (n : Nat) (bytes : List UInt8) : Array UInt8 :=
  if bytes = [] then memory else overwrite memory n bytes

theorem placed_placed (memory : Array UInt8) (n : Nat) (bytes bytes' : List UInt8) :
    placed (placed memory n bytes) (n + bytes.length) bytes' = placed memory n (bytes ++ bytes') := by
  cases bytes with
  | nil => rfl
  | cons b bytes =>
    cases bytes' with
    | nil => rw [List.append_nil, placed, if_pos rfl]
    | cons b' bytes' =>
      have h := Assembly.overwrite_overwrite memory n (b :: bytes) (b' :: bytes')
      simpa only [placed, List.cons_append, reduceCtorEq, if_false] using h

/-- What a piece of source adds to a session at an address: its bytes, unless one of its lines
leads out of the address space, and its labels. -/
structure Advances (labels : Labels) (n : Nat) (bytes : List UInt8) (ls : List Line)
    (ds : List (Nat × Label)) (s s' : Session) : Prop where
  stores : ∀ env, Provides labels env → ∃ new, s'.writes = s.writes ++ new ∧
    ((∀ l ∈ ls, l.StaysInside) → ∀ memory, stored env memory new = .ok (placed memory n bytes)) ∧
    (¬ (∀ l ∈ ls, l.StaysInside) →
      ∀ memory, ∃ e, stored env memory new = .error e ∧ IsRangeReport e)
  counter : s'.pc = .int (Int64.ofNat (n + bytes.length))
  symbols : Defines ds s.symbols s'.symbols
  link : s'.link = s.link
  koi8r : s'.koi8r = s.koi8r

section Advances

variable {labels : Labels} {n : Nat} {bytes bytes' : List UInt8} {ls ls' : List Line}
  {ds ds' : List (Nat × Label)} {s s' s'' : Session}

theorem Advances.trans (h : Advances labels n bytes ls ds s s')
    (h' : Advances labels (n + bytes.length) bytes' ls' ds' s' s'') :
    Advances labels n (bytes ++ bytes') (ls ++ ls') (ds ++ ds') s s'' where
  stores env henv := by
    obtain ⟨new, hnew, hin, hout⟩ := h.stores env henv
    obtain ⟨new', hnew', hin', hout'⟩ := h'.stores env henv
    refine ⟨new ++ new', by rw [hnew', hnew, List.append_assoc], fun hall memory => ?_,
      fun hsome memory => ?_⟩
    · rw [List.forall_mem_append] at hall
      rw [Assembly.stored_append, hin hall.1, ok_bind, hin' hall.2, placed_placed]
    · rw [Assembly.stored_append]
      by_cases hfirst : ∀ l ∈ ls, l.StaysInside
      · have hrest : ¬ ∀ l ∈ ls', l.StaysInside := fun hrest =>
          hsome (List.forall_mem_append.mpr ⟨hfirst, hrest⟩)
        rw [hin hfirst, ok_bind]
        exact hout' hrest _
      · obtain ⟨e, he, hrange⟩ := hout hfirst memory
        rw [he]
        exact ⟨e, rfl, hrange⟩
  counter := by rw [h'.counter, List.length_append, Nat.add_assoc]
  symbols := h.symbols.append h'.symbols
  link := h'.link.trans h.link
  koi8r := h'.koi8r.trans h.koi8r

end Advances

/-- The text of a piece of source, and what assembling it adds to a session at an address. -/
def Assembles (labels : Labels) (n : Nat) (text : String) (bytes : List UInt8) (ls : List Line)
    (ds : List (Nat × Label)) : Prop :=
  ∃ lines : List (String × (Command → Prop)),
    text = String.join (lines.map fun l => l.1 ++ "\n") ∧
    (∀ l ∈ lines, Source.Yields l.1 l.2) ∧
    ∀ cs, List.Forall₂ (fun l c => l.2 c) lines cs → ∀ fs inc s, s.pc = .int (Int64.ofNat n) →
      s.koi8r = false → Fresh ds s.symbols → ∃ s', Advances labels n bytes ls ds s s' ∧
        ∀ rest, (runSource fs inc (cs.map .ok ++ rest)).run s = (runSource fs inc rest).run s'

section Assembles

variable {labels : Labels} {n : Nat} {text text' : String} {bytes bytes' : List UInt8}
  {ls ls' : List Line} {ds ds' : List (Nat × Label)}

theorem Advances.refl {s : Session} (hs : s.pc = .int (Int64.ofNat n)) :
    Advances labels n [] [] [] s s where
  stores _ _ := ⟨[], (List.append_nil _).symm, fun _ _ => rfl, fun h => absurd (by simp) h⟩
  counter := hs
  symbols := rfl
  link := rfl
  koi8r := rfl

theorem assembles_nil (labels : Labels) (n : Nat) : Assembles labels n "" [] [] [] := by
  refine ⟨[], rfl, by simp, fun cs hcs fs inc s hs _ _ => ?_⟩
  cases hcs
  exact ⟨s, .refl hs, fun _ => rfl⟩

theorem Assembles.append (h : Assembles labels n text bytes ls ds)
    (h' : Assembles labels (n + bytes.length) text' bytes' ls' ds') :
    Assembles labels n (text ++ text') (bytes ++ bytes') (ls ++ ls') (ds ++ ds') := by
  obtain ⟨lines, rfl, hyields, hrun⟩ := h
  obtain ⟨lines', rfl, hyields', hrun'⟩ := h'
  refine ⟨lines ++ lines', ?_, List.forall_mem_append.mpr ⟨hyields, hyields'⟩,
    fun cs hcs fs inc s hs hkoi hfresh => ?_⟩
  · rw [List.map_append, String.join_append]
  · have hfirst := List.forall₂_take lines.length hcs
    have hsecond := List.forall₂_drop lines.length hcs
    rw [List.take_left] at hfirst
    rw [List.drop_left] at hsecond
    obtain ⟨s', hs', hsteps⟩ := hrun _ hfirst fs inc s hs hkoi hfresh.left
    obtain ⟨s'', hs'', hsteps'⟩ := hrun' _ hsecond fs inc s' hs'.counter
      (hs'.koi8r.trans hkoi) (hfresh.right hs'.symbols)
    refine ⟨s'', hs'.trans hs'', fun rest => ?_⟩
    rw [← List.take_append_drop lines.length cs, List.map_append, List.append_assoc, hsteps,
      hsteps']

/-- One line, whose command succeeds. -/
theorem assembles_line {line : String} {p : Command → Prop} (hline : Source.Yields line p)
    (hrun : ∀ c, p c → ∀ fs inc s, s.pc = .int (Int64.ofNat n) → s.koi8r = false →
      Fresh ds s.symbols → ∃ s', Advances labels n bytes ls ds s s' ∧
        (Assembly.run fs inc c).run s = (.ok .next, s')) :
    Assembles labels n (line ++ "\n") bytes ls ds := by
  refine ⟨[(line, p)], ?_, by simpa using hline, fun cs hcs fs inc s hs hkoi hfresh => ?_⟩
  · rw [List.map_cons, List.map_nil, String.join_cons, String.join_nil, String.append_empty]
  · rcases hcs with _ | ⟨hc, ⟨⟩⟩
    obtain ⟨s', hs', hnext⟩ := hrun _ hc fs inc s hs hkoi hfresh
    refine ⟨s', hs', fun rest => ?_⟩
    rw [List.map_cons, List.map_nil, List.singleton_append, runSource,
      Attempt.run_bind_ok hnext]

end Assembles

end Eleven.Disassembly

import Eleven.Proofs.Disassembly.Reachability
import Eleven.Proofs.Disassembly.RoundTrip
import Mathlib.Data.Finset.Card
import Mathlib.Logic.Relation

/-! The labels of a source text. They are those that the instructions reached by control ask for, at
the addresses that the text shows, and the order in which the instructions are found does not
matter. -/
namespace Eleven.Disassembly

/-- An instruction that control can come to. -/
def ReachedLine (n : Nat) (code : List UInt8) (l : Line) : Prop :=
  ∃ a, Reachable n code a ∧ InstructionAt n code a l

/-- The address that a line names. -/
def Names (l : Line) (t : Int64) : Prop := l.target?.map Machine.unsignedWord = some t

instance (l : Line) (t : Int64) : Decidable (Names l t) :=
  inferInstanceAs (Decidable (l.target?.map Machine.unsignedWord = some t))

/-- The label that the lines in use ask for at an address: none where no line names it, that of a
subroutine where a call does. -/
structure Labelled (used : Line → Prop) (t : Int64) (label? : Option Label) : Prop where
  isSome_iff : label?.isSome = true ↔ ∃ l, used l ∧ Names l t
  called_iff : label? = some .subroutine ↔ ∃ l, used l ∧ Names l t ∧ l.mnemonic = "JSR"

/-- An address is the start of an instruction in the text, or that of a byte of data. -/
def Displays (segments : List Segment) (t : Int64) : Prop :=
  (∃ l, .code l ∈ segments ∧ l.address = t) ∨
    ∃ start bytes, .data start bytes ∈ segments ∧ ∃ i < bytes.length, t = start + Int64.ofNat i

section Labels

variable {used used' : Line → Prop} {t : Int64} {label? label?' : Option Label} {labels : Labels}

theorem Labelled.congr (h : Labelled used t label?) (hused : ∀ l, used l ↔ used' l) :
    Labelled used' t label? := by
  obtain rfl : used = used' := funext fun l => propext (hused l)
  exact h

theorem Labelled.unique (h : Labelled used t label?) (h' : Labelled used t label?') :
    label? = label?' := by
  have hsome := h.isSome_iff.trans h'.isSome_iff.symm
  have hcalled := h.called_iff.trans h'.called_iff.symm
  rcases label? with _ | (_ | _) <;> rcases label?' with _ | (_ | _) <;> simp_all

theorem labelled_labelFor? (lines : List Line) (t : Int64) :
    Labelled (· ∈ lines) t (labelFor? lines t) := by
  have hmem : ∀ l, l ∈ lines.filter (fun l => l.target?.map Machine.unsignedWord == some t) ↔
      l ∈ lines ∧ Names l t := by
    intro l
    rw [List.mem_filter, beq_iff_eq, Names]
  unfold labelFor?
  generalize lines.filter (fun l => l.target?.map Machine.unsignedWord == some t) = uses at hmem ⊢
  cases uses with
  | nil =>
    have hunused : ∀ l, l ∈ lines → ¬ Names l t := fun l hl hnames =>
      List.not_mem_nil ((hmem l).mpr ⟨hl, hnames⟩)
    exact ⟨iff_of_false nofun fun ⟨l, hl, hnames⟩ => hunused l hl hnames,
      iff_of_false nofun fun ⟨l, hl, hnames, _⟩ => hunused l hl hnames⟩
  | cons first uses =>
    have hused : ∃ l, l ∈ lines ∧ Names l t := ⟨first, (hmem first).mp (List.mem_cons_self ..)⟩
    have hcalled : (first :: uses).any (·.mnemonic == "JSR") = true ↔
        ∃ l, l ∈ lines ∧ Names l t ∧ l.mnemonic = "JSR" := by
      simp only [List.any_eq_true, beq_iff_eq, hmem, and_assoc]
    simp only [List.isEmpty_cons, Bool.false_eq_true, if_false]
    split_ifs with hcall
    · exact ⟨iff_of_true rfl hused, iff_of_true rfl (hcalled.mp hcall)⟩
    · exact ⟨iff_of_true rfl hused, iff_of_false nofun (mt hcalled.mpr hcall)⟩

/-- The labels once a line is found. A call wins over other uses, whichever is found first. -/
def noteUse (l : Line) (labels : Labels) : Labels := fun t =>
  if Names l t then
    if l.mnemonic = "JSR" then some .subroutine else some ((labels t).getD .place)
  else labels t

theorem Labelled.noteUse (h : Labelled used t (labels t)) (l : Line) :
    Labelled (fun l' => l' = l ∨ used l') t (noteUse l labels t) := by
  unfold Disassembly.noteUse
  split_ifs with hnames hcall
  · exact ⟨iff_of_true rfl ⟨l, .inl rfl, hnames⟩, iff_of_true rfl ⟨l, .inl rfl, hnames, hcall⟩⟩
  · refine ⟨iff_of_true rfl ⟨l, .inl rfl, hnames⟩, ?_⟩
    have hkeeps : some ((labels t).getD .place) = some .subroutine ↔
        labels t = some .subroutine := by
      cases labels t <;> simp
    rw [hkeeps, h.called_iff]
    constructor
    · rintro ⟨l', hl', hrest⟩
      exact ⟨l', .inr hl', hrest⟩
    · rintro ⟨l', rfl | hl', hnames', hcall'⟩
      · exact absurd hcall' hcall
      · exact ⟨l', hl', hnames', hcall'⟩
  · have hold : ∀ l', (l' = l ∨ used l') ∧ Names l' t ↔ used l' ∧ Names l' t := by
      intro l'
      constructor
      · rintro ⟨rfl | hl', hnames'⟩
        · exact absurd hnames' hnames
        · exact ⟨hl', hnames'⟩
      · exact fun ⟨hl', hnames'⟩ => ⟨.inr hl', hnames'⟩
    exact ⟨by simp only [hold, h.isSome_iff], by simp only [← and_assoc, hold, h.called_iff]⟩

end Labels

/-- The line at an address, if a word of the image starts there. -/
def lineAt? (n : Nat) (code : List UInt8) (a : Nat) : Option Line :=
  if n ≤ a ∧ (a - n) % 2 = 0 then (wordLines (Int64.ofNat n) code)[(a - n) / 2]? else none

/-- A search for code that may take up its pending addresses in any order. -/
structure Search where
  pending : List Nat
  /-- The addresses that have ever been pending. -/
  seen : List Nat
  marked : List Nat
  labels : Labels

namespace Search

/-- Odd addresses, and those seen before, are not looked at. -/
def push (q : Search) (a : Nat) : Search :=
  if a % 2 = 1 ∨ a ∈ q.seen then q
  else { q with pending := q.pending ++ [a], seen := a :: q.seen }

def start (n : Nat) : Search := push ⟨[], [], [], fun _ => none⟩ n

/-- Looks at an address. -/
def visit (n : Nat) (code : List UInt8) (a : Nat) (q : Search) : Search :=
  match lineAt? n code a with
  | none => q
  | some l =>
    if a ∈ q.marked ∨ l.isInstruction = false then q
    else (nexts a l).foldl push { q with marked := a :: q.marked, labels := noteUse l q.labels }

/-- Any of the pending addresses is looked at next. -/
inductive Step (n : Nat) (code : List UInt8) (q : Search) : Search → Prop
  | visit {before behind : List Nat} {a : Nat} (hpending : q.pending = before ++ a :: behind) :
    Step n code q (visit n code a { q with pending := before ++ behind })

/-- What pushing addresses does. -/
structure Pushed (q : Search) (as : List Nat) (q' : Search) : Prop where
  marked : q'.marked = q.marked
  labels : q'.labels = q.labels
  length : q'.pending.length ≤ q.pending.length + as.length
  keeps : ∀ a ∈ q.pending, a ∈ q'.pending
  adds : ∀ a ∈ q'.pending, a ∈ q.pending ∨ a ∈ as
  even : ∀ a ∈ as, a % 2 = 0 → a ∈ q'.pending ∨ a ∈ q.seen
  seen : ∀ a ∈ q'.seen, a ∈ q.seen ∨ a ∈ q'.pending

/-- What a search keeps, in whatever order it goes. -/
structure Sound (n : Nat) (code : List UInt8) (q : Search) : Prop where
  explores : Explores n code {a | a ∈ q.pending} {a | a ∈ q.marked}
  seen : ∀ a ∈ q.seen, Covered n code {a | a ∈ q.pending} {a | a ∈ q.marked} a
  labels : ∀ t, Labelled (fun l => ∃ a ∈ q.marked, InstructionAt n code a l) t (q.labels t)

section Steps

variable {n a : Nat} {code : List UInt8} {l : Line} {q q' q'' : Search} {as bs : List Nat}

theorem pushed_push (q : Search) (a : Nat) : Pushed q [a] (q.push a) := by
  unfold push
  split_ifs with hskip
  · refine ⟨rfl, rfl, by simp, fun _ => id, fun _ => .inl, fun b hb heven => ?_, fun _ => .inl⟩
    rw [List.mem_singleton.mp hb] at heven ⊢
    exact .inr (hskip.resolve_left (by omega))
  · refine ⟨rfl, rfl, by simp, fun b hb => List.mem_append_left _ hb,
      fun b hb => List.mem_append.mp hb, fun b hb _ => .inl (List.mem_append_right _ hb),
      fun b hb => ?_⟩
    rcases List.mem_cons.mp hb with rfl | hb
    · exact .inr (by simp)
    · exact .inl hb

theorem Pushed.trans (h : Pushed q as q') (h' : Pushed q' bs q'') : Pushed q (as ++ bs) q'' := by
  have hlength := h.length
  have hlength' := h'.length
  have hlater : ∀ b, b ∈ q'.seen → b ∈ q''.pending ∨ b ∈ q.seen := fun b hb =>
    (h.seen b hb).symm.imp_left (h'.keeps b)
  refine ⟨h'.marked.trans h.marked, h'.labels.trans h.labels, ?_,
    fun b hb => h'.keeps b (h.keeps b hb), fun b hb => ?_, fun b hb heven => ?_, fun b hb => ?_⟩
  · rw [List.length_append]
    omega
  · rw [List.mem_append, ← or_assoc]
    exact (h'.adds b hb).imp_left (h.adds b)
  · rcases List.mem_append.mp hb with hb | hb
    · exact (h.even b hb heven).imp_left (h'.keeps b)
    · exact (h'.even b hb heven).elim .inl (hlater b)
  · exact (h'.seen b hb).elim (fun hb => (hlater b hb).symm) .inr

theorem pushed_foldl (q : Search) (as : List Nat) : Pushed q as (as.foldl push q) := by
  induction as generalizing q with
  | nil => exact ⟨rfl, rfl, le_rfl, fun _ => id, fun _ => .inl, nofun, fun _ => .inl⟩
  | cons a as ih => exact (pushed_push q a).trans (ih (q.push a))

theorem instructionAt_iff_lineAt? (heven : n % 2 = 0) (ha : a % 2 = 0) :
    InstructionAt n code a l ↔ lineAt? n code a = some l ∧ l.isInstruction = true := by
  unfold lineAt?
  split_ifs with hword
  · obtain ⟨i, rfl⟩ : ∃ i, a = n + 2 * i := ⟨(a - n) / 2, by omega⟩
    rw [show (n + 2 * i - n) / 2 = i by omega]
    exact instructionAt_iff
  · refine iff_of_false ?_ (by simp)
    rintro ⟨k, _, _, _, hk, -⟩
    omega

/-- One look: it marks an instruction, or finds nothing to mark. -/
theorem visit_cases (heven : n % 2 = 0) (code : List UInt8) (a : Nat) (q : Search) :
    (∃ l, a % 2 = 0 ∧ InstructionAt n code a l ∧ a ∉ q.marked ∧
      Pushed { q with marked := a :: q.marked, labels := noteUse l q.labels } (nexts a l)
        (q.visit n code a)) ∨
    Settled n code {a | a ∈ q.marked} a ∧ q.visit n code a = q := by
  unfold visit
  split
  · rename_i hnone
    refine .inr ⟨fun ha l hl => ?_, rfl⟩
    rw [instructionAt_iff_lineAt? heven ha, hnone] at hl
    cases hl.1
  · rename_i l hline
    split_ifs with hskip
    · refine .inr ⟨fun ha l' hl' => ?_, rfl⟩
      obtain ⟨hline', hinstr⟩ := (instructionAt_iff_lineAt? heven ha).mp hl'
      obtain rfl : l' = l := Option.some_inj.mp (hline'.symm.trans hline)
      exact hskip.resolve_right (by simp [hinstr])
    · rw [not_or, Bool.not_eq_false] at hskip
      have ha : a % 2 = 0 := by
        unfold lineAt? at hline
        split_ifs at hline
        omega
      exact .inl ⟨l, ha, (instructionAt_iff_lineAt? heven ha).mpr ⟨hline, hskip.2⟩, hskip.1,
        pushed_foldl _ _⟩

theorem sound_start (heven : n % 2 = 0) (code : List UInt8) : Sound n code (start n) := by
  have hstart : start n = ⟨[n], [n], [], fun _ => none⟩ := by
    rw [start, push, if_neg (by simp [heven])]
    rfl
  rw [hstart]
  refine ⟨?_, fun a ha => .inl ha, fun t => ⟨by simp, by simp⟩⟩
  simpa using explores_start n code

/-- What is kept stays so, whichever address is looked at next. -/
theorem Sound.step (heven : n % 2 = 0) (h : Sound n code q) (hstep : Step n code q q') :
    Sound n code q' := by
  rcases hstep with @⟨before, behind, a, hpending⟩
  have hmem : ∀ b, b ∈ q.pending ↔ b = a ∨ b ∈ before ++ behind := by
    intro b
    rw [hpending, List.mem_append, List.mem_cons, List.mem_append, or_left_comm]
  obtain ⟨l, ha, hl, -, hpushed⟩ | ⟨hsettled, hvisit⟩ :=
    visit_cases heven code a { q with pending := before ++ behind }
  · generalize visit n code a { q with pending := before ++ behind } = q' at hpushed
    have hmarked : {b | b ∈ q'.marked} = insert a {b | b ∈ q.marked} := by
      ext b
      change b ∈ q'.marked ↔ _
      rw [hpushed.marked]
      exact List.mem_cons
    have hdrop : ∀ b ∈ q.pending, b = a ∨ b ∈ q'.pending := fun b hb =>
      ((hmem b).mp hb).imp_right (hpushed.keeps b)
    have hseen : ∀ b ∈ q.seen,
        Covered n code {b | b ∈ q'.pending} (insert a {b | b ∈ q.marked}) b := fun b hb =>
      (h.seen b hb).drop (fun _ => .inr) (settled_insert n code _ a) hdrop
    refine ⟨?_, fun b hb => ?_, fun t => ?_⟩
    · rw [hmarked]
      refine h.explores.visit ((hmem a).mpr (.inl rfl)) ha hl (fun b hb => ?_) hdrop
        fun b hleads => ?_
      · exact (hpushed.adds b hb).imp_left fun hb => (hmem b).mpr (.inr hb)
      · obtain ⟨hnext, hb⟩ := (leads_iff ha hl.isInstruction).mp hleads
        exact (hpushed.even b hnext hb).elim .inl (hseen b)
    · rw [hmarked]
      exact (hpushed.seen b hb).elim (hseen b) .inl
    · rw [hpushed.labels, hpushed.marked]
      refine ((h.labels t).noteUse l).congr fun l' => ?_
      rw [List.exists_mem_cons_iff]
      exact or_congr_left ⟨fun heq => heq ▸ hl, fun hl' => hl'.unique hl⟩
  · rw [hvisit]
    have hdrop : ∀ b ∈ q.pending, b = a ∨ b ∈ before ++ behind := fun b => (hmem b).mp
    exact ⟨h.explores.skip hsettled (fun b hb => (hmem b).mpr (.inr hb)) hdrop,
      fun b hb => (h.seen b hb).drop (fun _ => id) hsettled hdrop, h.labels⟩

/-- The bytes of the image whose addresses have no mark. -/
def unmarked (n : Nat) (code : List UInt8) (marked : List Nat) : Finset Nat :=
  (Finset.range code.length).filter fun k => n + k ∉ marked

theorem card_unmarked_lt {marked : List Nat} (hlow : n ≤ a) (hhigh : a < n + code.length)
    (hnew : a ∉ marked) : (unmarked n code (a :: marked)).card < (unmarked n code marked).card := by
  have hless : unmarked n code (a :: marked) ⊆ unmarked n code marked := by
    intro k hk
    rw [unmarked, Finset.mem_filter, List.mem_cons, not_or] at hk
    exact Finset.mem_filter.mpr ⟨hk.1, hk.2.2⟩
  refine Finset.card_lt_card ((Finset.ssubset_iff_of_subset hless).mpr ⟨a - n, ?_, fun hk => ?_⟩)
  · rw [unmarked, Finset.mem_filter, Finset.mem_range, Nat.add_sub_cancel' hlow]
    exact ⟨by omega, hnew⟩
  · rw [unmarked, Finset.mem_filter, Nat.add_sub_cancel' hlow] at hk
    exact hk.2 (List.mem_cons_self ..)

/-- The pending addresses, and two more for each byte without a mark. -/
def potential (n : Nat) (code : List UInt8) (q : Search) : Nat :=
  q.pending.length + 2 * (unmarked n code q.marked).card

theorem potential_lt (heven : n % 2 = 0) (hn : n + code.length ≤ 0o200000)
    (hstep : Step n code q q') : potential n code q' < potential n code q := by
  rcases hstep with @⟨before, behind, a, hpending⟩
  have hlength : q.pending.length = (before ++ behind).length + 1 := by
    rw [hpending, List.length_append, List.length_cons, List.length_append]
    omega
  obtain ⟨l, -, hl, hnew, hpushed⟩ | ⟨-, hvisit⟩ :=
    visit_cases heven code a { q with pending := before ++ behind }
  · have hnexts := length_nexts a l
    have hpushes := hpushed.length
    obtain ⟨hlow, hhigh, hsize, -⟩ := hl.inside hn
    have hfewer := @card_unmarked_lt n a code q.marked hlow (by omega) hnew
    rw [potential, potential, hpushed.marked]
    dsimp only at hpushes hfewer ⊢
    omega
  · rw [hvisit, potential, potential]
    dsimp only
    omega

theorem wellFounded_step (heven : n % 2 = 0) (hn : n + code.length ≤ 0o200000) :
    WellFounded fun q' q => Step n code q q' :=
  Subrelation.wf (potential_lt heven hn) (measure (potential n code)).wf

theorem Sound.run (heven : n % 2 = 0) (h : Relation.ReflTransGen (Step n code) (start n) q) :
    Sound n code q := by
  induction h with
  | refl => exact sound_start heven code
  | tail _ hstep ih => exact ih.step heven hstep

end Steps

end Search

section Image

variable {n : Nat} {code : List UInt8}

/-- An instruction that control can come to has its mark. -/
theorem exists_marked (heven : n % 2 = 0) (hn : n + code.length ≤ 0o200000) {a : Nat} {l : Line}
    (ha : Reachable n code a) (hl : InstructionAt n code a l) :
    ∃ i, a = n + 2 * i ∧ (reachedLines (Int64.ofNat n) code)[i]? = some (some l) := by
  have ha' := ha.even heven
  obtain ⟨hlow, -⟩ := hl.inside hn
  obtain ⟨i, rfl⟩ : ∃ i, a = n + 2 * i := ⟨(a - n) / 2, by omega⟩
  exact ⟨i, rfl, (marked_iff_reachable heven hn).mpr ⟨ha, hl⟩⟩

theorem mem_filterMap_reachedLines (heven : n % 2 = 0) (hn : n + code.length ≤ 0o200000)
    (l : Line) :
    l ∈ (reachedLines (Int64.ofNat n) code).filterMap id ↔ ReachedLine n code l := by
  rw [List.mem_filterMap]
  constructor
  · rintro ⟨_, hmem, rfl⟩
    obtain ⟨i, hi⟩ := List.mem_iff_getElem?.mp hmem
    exact ⟨_, (marked_iff_reachable heven hn).mp hi⟩
  · rintro ⟨a, ha, hl⟩
    obtain ⟨i, -, hi⟩ := exists_marked heven hn ha hl
    exact ⟨some l, List.mem_iff_getElem?.mpr ⟨i, hi⟩, rfl⟩

theorem shows_data {m : Nat} {bytes : List UInt8} (hm : m + bytes.length < 2 ^ 63) (t : Int64) :
    Segment.shows t (.data (Int64.ofNat m) bytes) = true ↔
      ∃ i < bytes.length, t = Int64.ofNat m + Int64.ofNat i := by
  rw [Segment.shows, Bool.and_eq_true, decide_eq_true_eq, decide_eq_true_eq,
    Int64.le_iff_toInt_le, Int64.lt_iff_toInt_lt, toInt_end hm, Int64.toInt_ofNat_of_lt (by omega)]
  constructor
  · rintro ⟨hlow, hhigh⟩
    refine ⟨(t.toInt - m).toNat, by omega, ?_⟩
    rw [← Int64.ofNat_add, ← Int64.toInt_inj, Int64.toInt_ofNat_of_lt (by omega)]
    omega
  · rintro ⟨i, hi, rfl⟩
    rw [← Int64.ofNat_add, Int64.toInt_ofNat_of_lt (by omega)]
    omega

theorem Tiles.data_inside {segments : List Segment} (h : Tiles n segments code) {start : Int64}
    {bytes : List UInt8} (hmem : .data start bytes ∈ segments) :
    ∃ m, start = Int64.ofNat m ∧ m + bytes.length ≤ n + code.length := by
  induction h with
  | nil n => cases hmem
  | @code n w behind rest l segments hl hinstr _ ih =>
    rw [List.length_append, length_wordsToBytes]
    rcases List.mem_cons.mp hmem with heq | hmem
    · cases heq
    · obtain ⟨m, hstart, hend⟩ := ih hmem
      exact ⟨m, hstart, by omega⟩
  | @data n bs rest segments hne _ ih =>
    rw [List.length_append]
    rcases List.mem_cons.mp hmem with heq | hmem
    · cases heq
      exact ⟨n, rfl, by omega⟩
    · obtain ⟨m, hstart, hend⟩ := ih hmem
      exact ⟨m, hstart, by omega⟩

/-- What the segments of an image show. -/
theorem any_shows_iff (hn : n + code.length ≤ 0o200000) {segments : List Segment} {t : Int64}
    (h : Tiles n segments code) : segments.any (Segment.shows t) = true ↔ Displays segments t := by
  rw [List.any_eq_true]
  constructor
  · rintro ⟨segment, hmem, hshows⟩
    cases segment with
    | code l => exact .inl ⟨l, hmem, by simpa [Segment.shows] using hshows⟩
    | data start bytes =>
      obtain ⟨m, rfl, hend⟩ := h.data_inside hmem
      exact .inr ⟨_, bytes, hmem, (shows_data (by omega) t).mp hshows⟩
  · rintro (⟨l, hmem, rfl⟩ | ⟨start, bytes, hmem, hin⟩)
    · exact ⟨.code l, hmem, by simp [Segment.shows]⟩
    · obtain ⟨m, rfl, hend⟩ := h.data_inside hmem
      exact ⟨_, hmem, (shows_data (by omega) t).mpr hin⟩

theorem tiles_segmentsOf (hn : n + code.length ≤ 0o200000) :
    Tiles n (segmentsOf (Int64.ofNat n) code (reachedLines (Int64.ofNat n) code)) code := by
  by_cases hne : code = []
  · subst hne
    rw [segmentsOf, if_neg (by simp)]
    exact .nil n
  · rw [segmentsOf_ofNat hne (by omega)]
    exact tiles_layout (marked_reachedLines n code) (by omega)

/-- The addresses of marked instructions, and the places of the marks. -/
theorem reachable_iff_marked (heven : n % 2 = 0) (hn : n + code.length ≤ 0o200000) {a : Nat} :
    (Reachable n code a ∧ ∃ l, InstructionAt n code a l) ↔
      ∃ i l, a = n + 2 * i ∧ (reachedLines (Int64.ofNat n) code)[i]? = some (some l) := by
  constructor
  · rintro ⟨ha, l, hl⟩
    obtain ⟨i, hi, hmark⟩ := exists_marked heven hn ha hl
    exact ⟨i, l, hi, hmark⟩
  · rintro ⟨i, l, rfl, hi⟩
    obtain ⟨hreach, hl⟩ := (marked_iff_reachable heven hn).mp hi
    exact ⟨hreach, l, hl⟩

/-- A search that has come to its end has the marks and the labels of the image. -/
theorem Search.Sound.finished {q : Search} (h : q.Sound n code) (heven : n % 2 = 0)
    (hn : n + code.length ≤ 0o200000) (hdone : q.pending = []) :
    (∀ a, a ∈ q.marked ↔
      ∃ i l, a = n + 2 * i ∧ (reachedLines (Int64.ofNat n) code)[i]? = some (some l)) ∧
    ∀ t, q.labels t = labelFor? ((reachedLines (Int64.ofNat n) code).filterMap id) t := by
  have hexplored : Explores n code ∅ {a | a ∈ q.marked} := by
    have hexplores := h.explores
    rw [hdone] at hexplores
    simpa using hexplores
  have hexact : ∀ a, a ∈ q.marked ↔ Reachable n code a ∧ ∃ l, InstructionAt n code a l :=
    fun a => hexplored.exact heven
  refine ⟨fun a => (hexact a).trans (reachable_iff_marked heven hn), fun t => ?_⟩
  refine ((h.labels t).congr fun l => ?_).unique (labelled_labelFor? _ t)
  rw [mem_filterMap_reachedLines heven hn]
  constructor
  · rintro ⟨a, ha, hl⟩
    exact ⟨a, ((hexact a).mp ha).1, hl⟩
  · rintro ⟨a, hreach, hl⟩
    exact ⟨a, (hexact a).mpr ⟨hreach, l, hl⟩, hl⟩

end Image

/-- Control flow in a source text is exact. A line is marked exactly if control can come to its
address and an instruction stands there. An address has a label exactly if a marked line names it
and the text shows it, that of a subroutine just if a marked call names it. A search that takes up
its addresses in any other order comes to an end too, with the same marks and the same labels. -/
theorem flow_exact (code : List UInt8) (base : Int64) (heven : base.toInt % 2 = 0)
    (hlow : 0 ≤ base.toInt) (hhigh : base.toInt + code.length ≤ 0o200000) :
    let n := base.toInt.toNat
    let lines := reachedLines base code
    let segments := segmentsOf base code lines
    let labels := visibleLabels (lines.filterMap id) segments
    (∀ i l, lines[i]? = some (some l) ↔
      Reachable n code (n + 2 * i) ∧ InstructionAt n code (n + 2 * i) l) ∧
    (sourceText code base = .ok (if code.isEmpty then "" else "\t.LINK " ++ Text.bareOctal base ++
        "\n" ++ String.join (segments.map (segmentText labels))) ∧
      ∀ t, (Displays segments t → Labelled (ReachedLine n code) t (labels t)) ∧
        (¬ Displays segments t → labels t = none)) ∧
    WellFounded (fun q' q => Search.Step n code q q') ∧
    ∀ q, Relation.ReflTransGen (Search.Step n code) (Search.start n) q →
      (q.pending ≠ [] → ∃ q', Search.Step n code q q') ∧
      (q.pending = [] →
        (∀ a, a ∈ q.marked ↔ ∃ i l, a = n + 2 * i ∧ lines[i]? = some (some l)) ∧
        ∀ t, q.labels t = labelFor? (lines.filterMap id) t) := by
  obtain ⟨n, hn, rfl⟩ : ∃ n : Nat, n < 2 ^ 63 ∧ base = Int64.ofNat n := by
    refine ⟨base.toInt.toNat, by omega, ?_⟩
    rw [← Int64.toInt_inj, Int64.toInt_ofNat_of_lt (by omega), Int.toNat_of_nonneg hlow]
  rw [Int64.toInt_ofNat_of_lt hn] at heven hhigh
  rw [toNat_toInt_ofNat hn]
  have heven : n % 2 = 0 := by omega
  have hend : n + code.length ≤ 0o200000 := by omega
  intro _ lines segments labels
  have hshows : ∀ t, segments.any (Segment.shows t) = true ↔ Displays segments t :=
    fun t => any_shows_iff hend (tiles_segmentsOf hend)
  refine ⟨fun i l => marked_iff_reachable heven hend, ⟨?_, fun t => ⟨fun ht => ?_, fun ht => ?_⟩⟩,
    Search.wellFounded_step heven hend, fun q hq => ⟨fun hne => ?_, fun hdone => ?_⟩⟩
  · rw [sourceText, if_pos (isValidBase_ofNat heven hend)]
    split_ifs <;> rfl
  · have hlabel : labels t = labelFor? (lines.filterMap id) t := if_pos ((hshows t).mpr ht)
    rw [hlabel]
    exact (labelled_labelFor? _ t).congr (mem_filterMap_reachedLines heven hend)
  · exact if_neg (mt (hshows t).mp ht)
  · obtain ⟨a, rest, hpending⟩ := List.exists_cons_of_ne_nil hne
    exact ⟨_, .visit (show q.pending = [] ++ a :: rest from hpending)⟩
  · exact (Search.Sound.run heven hq).finished heven hend hdone

/-- The branch behind a load is reached, and the label at zero comes from such a line. -/
theorem flow_exact_loop :
    Reachable 0 loopImage 4 ∧ ∃ l, ReachedLine 0 loopImage l ∧ Names l 0 := by
  obtain ⟨hmarks, ⟨-, hlabels⟩, -⟩ := flow_exact loopImage 0 (by decide) (by decide) (by decide)
  have hbranch : ((reachedLines 0 loopImage)[2]?.bind id).isSome = true := by decide +kernel
  have hlabel : visibleLabels ((reachedLines 0 loopImage).filterMap id)
      (segmentsOf 0 loopImage (reachedLines 0 loopImage)) 0 = some .place := by decide +kernel
  constructor
  · obtain ⟨l, hl⟩ := Option.isSome_iff_exists.mp hbranch
    obtain ⟨_, hline, rfl⟩ := Option.bind_eq_some_iff.mp hl
    exact ((hmarks 2 l).mp hline).1
  · by_cases hshown : Displays (segmentsOf 0 loopImage (reachedLines 0 loopImage)) 0
    · exact ((hlabels 0).1 hshown).isSome_iff.mp (by rw [hlabel]; rfl)
    · rw [(hlabels 0).2 hshown] at hlabel
      cases hlabel

end Eleven.Disassembly

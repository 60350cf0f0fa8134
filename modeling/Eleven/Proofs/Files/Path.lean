import Eleven.Files.Path
import Eleven.Proofs.Text.Lines
import Mathlib.Data.List.Basic

/-! A path that has been cleaned or resolved names something, and cleaning it again changes
nothing. -/
namespace Eleven.Path

open Eleven.Text (split)

/-- Components of a clean path, innermost first. What stands before a `..` is `..` too, and no `..`
follows the root. -/
inductive Normal (rooted : Bool) : List (List Char) → Prop
  | nil : Normal rooted []
  | cons {part : List Char} {done : List (List Char)} (hne : part ≠ []) (hdot : part ≠ ['.'])
    (hslash : '/' ∉ part)
    (hparent : part = ['.', '.'] → rooted = false ∧ ∀ p ∈ done, p = ['.', '.'])
    (h : Normal rooted done) : Normal rooted (part :: done)

/-- The components of a path that are left once it is clean, innermost first. -/
def components (path : String) : List (List Char) :=
  (split '/' path.toList).foldl (pushComponent (isAbsolute path)) []

/-- Components put together again. -/
def spelling (rooted : Bool) (done : List (List Char)) : String :=
  if rooted then String.ofList ('/' :: joinComponents done.reverse)
  else if done = [] then "." else String.ofList (joinComponents done.reverse)

theorem clean_eq (path : String) : clean path = spelling (isAbsolute path) (components path) := by
  unfold clean spelling components
  simp only [List.reverse_eq_nil_iff]

section Components

variable {rooted : Bool} {done : List (List Char)}

theorem Normal.not_mem (h : Normal rooted done) : ∀ p ∈ done, '/' ∉ p := by
  induction h with
  | nil => simp
  | cons _ _ hslash _ _ ih => exact List.forall_mem_cons.mpr ⟨hslash, ih⟩

theorem Normal.ne_nil (h : Normal rooted done) : ∀ p ∈ done, p ≠ [] := by
  induction h with
  | nil => simp
  | cons hne _ _ _ _ ih => exact List.forall_mem_cons.mpr ⟨hne, ih⟩

/-- One component more. -/
theorem Normal.push (h : Normal rooted done) {part : List Char} (hslash : '/' ∉ part) :
    Normal rooted (pushComponent rooted done part) := by
  unfold pushComponent
  by_cases hskip : (part = [] || part = ['.']) = true
  · rw [if_pos hskip]
    exact h
  · rw [if_neg hskip]
    have hpart : part ≠ [] ∧ part ≠ ['.'] := by simpa using hskip
    by_cases hparent : part = ['.', '.']
    · rw [if_pos hparent]
      cases h with
      | nil =>
        cases rooted with
        | true => exact .nil
        | false => exact .cons hpart.1 hpart.2 hslash (fun _ => ⟨rfl, by simp⟩) .nil
      | @cons last before hne hdot hlast hup hbefore =>
        dsimp only
        split_ifs with heq
        · obtain ⟨hfree, hall⟩ := hup heq
          have hparents : ∀ p ∈ last :: before, p = ['.', '.'] :=
            List.forall_mem_cons.mpr ⟨heq, hall⟩
          exact .cons hpart.1 hpart.2 hslash (fun _ => ⟨hfree, hparents⟩)
            (.cons hne hdot hlast hup hbefore)
        · exact hbefore
    · rw [if_neg hparent]
      exact .cons hpart.1 hpart.2 hslash (fun heq => absurd heq hparent) h

theorem normal_components (path : String) : Normal (isAbsolute path) (components path) := by
  have hfold : ∀ (parts done : List (List Char)), (∀ p ∈ parts, '/' ∉ p) →
      Normal (isAbsolute path) done →
        Normal (isAbsolute path) (parts.foldl (pushComponent (isAbsolute path)) done) := by
    intro parts
    induction parts with
    | nil => exact fun done _ h => h
    | cons part parts ih =>
      intro done hparts h
      rw [List.forall_mem_cons] at hparts
      exact ih _ hparts.2 (h.push hparts.1)
  exact hfold _ [] (fun p hp => Text.not_mem_of_mem_split hp) .nil

/-- Components in this form are kept as they are. -/
theorem Normal.foldl_reverse (h : Normal rooted done) :
    done.reverse.foldl (pushComponent rooted) [] = done := by
  induction h with
  | nil => rfl
  | @cons part done hne hdot hslash hparent h ih =>
    have hskip : ¬ (part = [] || part = ['.']) = true := by simp [hne, hdot]
    rw [List.reverse_cons, List.foldl_append, ih, List.foldl_cons, List.foldl_nil]
    unfold pushComponent
    rw [if_neg hskip]
    by_cases heq : part = ['.', '.']
    · rw [if_pos heq]
      obtain ⟨hfree, hall⟩ := hparent heq
      cases done with
      | nil => simp [hfree]
      | cons last before =>
        have hlast : last = ['.', '.'] := hall last (List.mem_cons_self ..)
        simp only [hlast, if_true]
    · rw [if_neg heq]

theorem joinComponents_cons_cons (part next : List Char) (rest : List (List Char)) :
    joinComponents (part :: next :: rest) = part ++ '/' :: joinComponents (next :: rest) := rfl

theorem split_joinComponents {parts : List (List Char)} (hne : parts ≠ [])
    (h : ∀ p ∈ parts, '/' ∉ p) : split '/' (joinComponents parts) = parts := by
  induction parts with
  | nil => exact absurd rfl hne
  | cons part rest ih =>
    rw [List.forall_mem_cons] at h
    cases rest with
    | nil => exact Text.split_of_not_mem h.1
    | cons next rest =>
      have hrest := ih (by simp) h.2
      rw [joinComponents_cons_cons, Text.split_append h.1, hrest]

theorem head?_joinComponents {parts : List (List Char)} (h : ∀ p ∈ parts, '/' ∉ p)
    (hne : ∀ p ∈ parts, p ≠ []) : (joinComponents parts).head? ≠ some '/' := by
  cases parts with
  | nil => exact (Option.some_ne_none '/').symm
  | cons part rest =>
    rw [List.forall_mem_cons] at h hne
    obtain ⟨c, cs, rfl⟩ := List.exists_cons_of_ne_nil hne.1
    have hc : c ≠ '/' := fun hc => h.1 (hc ▸ List.mem_cons_self ..)
    have hhead : some c ≠ some '/' := fun heq => hc (Option.some.inj heq)
    cases rest with
    | nil => exact hhead
    | cons next rest =>
      rw [joinComponents_cons_cons]
      exact hhead

theorem isAbsolute_spelling (h : Normal rooted done) : isAbsolute (spelling rooted done) = rooted := by
  unfold spelling isAbsolute
  cases rooted with
  | true => simp
  | false =>
    by_cases hdone : done = []
    · simp [hdone]
    · have hhead : (joinComponents done.reverse).head? ≠ some '/' :=
        head?_joinComponents (fun p hp => h.not_mem p (List.mem_reverse.mp hp))
          fun p hp => h.ne_nil p (List.mem_reverse.mp hp)
      simpa [hdone] using hhead

theorem components_spelling (h : Normal rooted done) : components (spelling rooted done) = done := by
  have hjoined : done ≠ [] → split '/' (joinComponents done.reverse) = done.reverse := fun hne =>
    split_joinComponents (by simpa using hne) fun p hp => h.not_mem p (List.mem_reverse.mp hp)
  unfold components
  rw [isAbsolute_spelling h]
  unfold spelling
  by_cases hdone : done = []
  · subst hdone
    cases rooted <;> rfl
  · cases rooted with
    | true =>
      -- nothing stands before the first slash, and this empty component is skipped
      rw [if_pos rfl, String.toList_ofList, Text.split_cons_self, hjoined hdone, List.foldl_cons]
      exact h.foldl_reverse
    | false =>
      rw [if_neg (by simp), if_neg hdone, String.toList_ofList, hjoined hdone]
      exact h.foldl_reverse

end Components

/-- A clean path is clean. -/
theorem clean_clean (path : String) : clean (clean path) = clean path := by
  have hnormal := normal_components path
  rw [clean_eq path, clean_eq (spelling _ _), isAbsolute_spelling hnormal,
    components_spelling hnormal]

theorem ofList_ne_empty {cs : List Char} (h : cs ≠ []) : String.ofList cs ≠ "" := by
  intro heq
  apply h
  rw [← String.toList_ofList (l := cs), heq]
  rfl

theorem joinComponents_ne_nil {parts : List (List Char)} (hne : parts ≠ [])
    (h : ∀ p ∈ parts, p ≠ []) : joinComponents parts ≠ [] := by
  cases parts with
  | nil => exact absurd rfl hne
  | cons part rest =>
    cases rest with
    | nil => exact h part (by simp)
    | cons next rest =>
      rw [joinComponents_cons_cons]
      exact List.append_ne_nil_of_right_ne_nil part (List.cons_ne_nil _ _)

/-- A clean path is never empty. -/
theorem clean_ne_empty (path : String) : clean path ≠ "" := by
  have hparts := (normal_components path).ne_nil
  rw [clean_eq]
  unfold spelling
  split_ifs with hroot hdone
  · exact ofList_ne_empty (by simp)
  · decide
  · apply ofList_ne_empty
    apply joinComponents_ne_nil (by simpa using hdone)
    intro p hp
    exact hparts p (List.mem_reverse.mp hp)

/-- A name is resolved by cleaning some path. -/
theorem exists_resolve_eq_clean (source name : String) :
    ∃ path, resolve source name = clean path := by
  unfold resolve
  split_ifs
  · exact ⟨name, rfl⟩
  · have hdirectory : directory source ≠ "" := clean_ne_empty _
    unfold join
    rw [if_neg hdirectory]
    exact ⟨_, rfl⟩

theorem resolve_ne_empty (source name : String) : resolve source name ≠ "" := by
  obtain ⟨path, hpath⟩ := exists_resolve_eq_clean source name
  rw [hpath]
  exact clean_ne_empty path

theorem clean_resolve (source name : String) : clean (resolve source name) = resolve source name := by
  obtain ⟨path, hpath⟩ := exists_resolve_eq_clean source name
  rw [hpath, clean_clean]

end Eleven.Path

import Eleven.Disassembly.SourceText
import Eleven.Proofs.Disassembly.Operand
import Eleven.Proofs.Machine.Table
import Eleven.Proofs.Source.Parsing

/-! Operands as they are printed, with and without labels, are read as what they stand for. -/
namespace Eleven.Disassembly

open Eleven.Machine (Instruction Mode Register unsignedWord)
open Eleven.Source (Operand OperandKind Lexeme Spelled Breaks IsAtom ReadsOperand modeOf breaks_cons)

section Names

/-- A name in capitals, as names are printed. -/
def isPrintedName (s : String) : Bool :=
  match s.toList with
  | [] => false
  | c :: tail => Source.startsName c tail && tail.all Source.isNameChar &&
      (c :: tail).all fun x => Text.upperChar x == x

theorem isPrintedName_spelled {s : String} (h : isPrintedName s = true) {cs : List Char}
    {ls : List Lexeme} (hcs : Breaks cs) (hls : Spelled cs ls) :
    Spelled (s.toList ++ cs) (.ident s :: ls) := by
  unfold isPrintedName at h
  split at h
  · cases h
  · rename_i c tail hs
    simp only [Bool.and_eq_true, List.all_eq_true] at h
    have hstart : Source.startsName c (tail ++ cs) = true := by
      cases tail with
      | nil =>
        have hc : Source.isNameStart c = true := by simpa [Source.startsName] using h.1.1
        simp [Source.startsName, hc]
      | cons x tail => simpa [Source.startsName] using h.1.1
    have hspelled := Spelled.ident hstart h.1.2 hcs hls
    rwa [← hs, String.ofList_toList, ← List.cons_append, ← hs] at hspelled

theorem isPrintedName_upper {s : String} (h : isPrintedName s = true) : Text.upper s = s := by
  unfold isPrintedName at h
  split at h
  · cases h
  · rename_i c tail hs
    simp only [Bool.and_eq_true, List.all_eq_true, beq_iff_eq] at h
    rw [Text.upper, hs, List.map_congr_left h.2, List.map_id', ← hs, String.ofList_toList]

theorem printed_names :
    (∀ i ∈ Instruction.table, isPrintedName i.name = true ∧ Source.isDotted i.name = false) ∧
    ∀ n < 8, isPrintedName (Register.name ⟨UInt16.ofNat n⟩) = true ∧
      Register.ofName? (Register.name ⟨UInt16.ofNat n⟩) = some ⟨UInt16.ofNat n⟩ := by
  decide +kernel

/-- Names of instructions are printed names, and each is the name of one instruction. -/
theorem instruction_names : ∀ i ∈ Instruction.table, isPrintedName i.name = true ∧
    Source.isDotted i.name = false ∧ Instruction.ofName? i.name = some i := by
  intro i hi
  obtain ⟨hprinted, hdotted⟩ := printed_names.1 i hi
  exact ⟨hprinted, hdotted, Instruction.ofName?_name hi (isPrintedName_upper hprinted)⟩

theorem register_name {r : Register} (hr : r.number.toNat < 8) :
    isPrintedName r.name = true ∧ Register.ofName? r.name = some r := by
  have h := printed_names.2 r.number.toNat hr
  rwa [UInt16.ofNat_toNat] at h

theorem toList_labelName (a : Int64) (k : Label) :
    ∃ front ∈ [['L', 'O', 'C'], ['S', 'U', 'B']],
      (labelName a k).toList = front ++ (Text.paddedOctal 6 a).toList := by
  cases k with
  | place => exact ⟨['L', 'O', 'C'], by simp, by simp [labelName]⟩
  | subroutine => exact ⟨['S', 'U', 'B'], by simp, by simp [labelName]⟩

/-- A label is a printed name, and not one that means something else. -/
theorem label_name {n : Nat} (hn : n < 2 ^ 63) (k : Label) :
    isPrintedName (labelName (Int64.ofNat n) k) = true ∧
      Source.isDotted (labelName (Int64.ofNat n) k) = false ∧
      Register.ofName? (labelName (Int64.ofNat n) k) = none := by
  obtain ⟨front, hfront, hname⟩ := toList_labelName (Int64.ofNat n) k
  have hdigits : ∀ x ∈ (Text.paddedOctal 6 (Int64.ofNat n)).toList, Text.IsOctal x := by
    intro x hx
    rw [Text.toList_paddedOctal 6 hn] at hx
    rcases List.mem_append.mp hx with hx | hx
    · exact ⟨0, by decide, List.eq_of_mem_replicate hx⟩
    · exact Text.isOctal_of_mem_toDigits hx
  have hchars : ∀ x ∈ (Text.paddedOctal 6 (Int64.ofNat n)).toList,
      Source.isNameChar x = true ∧ (Text.upperChar x == x) = true :=
    fun x hx => ⟨(hdigits x hx).isNameChar, by simp [(hdigits x hx).upperChar]⟩
  have hprinted : isPrintedName (labelName (Int64.ofNat n) k) = true := by
    unfold isPrintedName
    rw [hname]
    simp only [List.mem_cons, List.not_mem_nil, or_false] at hfront
    rcases hfront with rfl | rfl
    · simp only [List.cons_append, List.nil_append, List.all_cons, Bool.and_eq_true,
        List.all_eq_true]
      exact ⟨⟨rfl, rfl, rfl, fun x hx => (hchars x hx).1⟩, rfl, rfl, rfl,
        fun x hx => (hchars x hx).2⟩
    · simp only [List.cons_append, List.nil_append, List.all_cons, Bool.and_eq_true,
        List.all_eq_true]
      exact ⟨⟨rfl, rfl, rfl, fun x hx => (hchars x hx).1⟩, rfl, rfl, rfl,
        fun x hx => (hchars x hx).2⟩
  refine ⟨hprinted, ?_, ?_⟩
  · rw [Source.isDotted, hname]
    simp only [List.mem_cons, List.not_mem_nil, or_false] at hfront
    rcases hfront with rfl | rfl <;> rfl
  · have hlength : 3 ≤ (labelName (Int64.ofNat n) k).length := by
      rw [← String.length_toList, hname, List.length_append]
      simp only [List.mem_cons, List.not_mem_nil, or_false] at hfront
      rcases hfront with rfl | rfl <;> simp
    have hshort : ∀ s : String, s.length = 2 → labelName (Int64.ofNat n) k ≠ s := by
      rintro s hs rfl
      omega
    unfold Register.ofName?
    rw [isPrintedName_upper hprinted]
    split
    case h_11 => rfl
    all_goals exact absurd (by assumption) (hshort _ rfl)

theorem spelled_octal {n : Nat} (hn : n < 2 ^ 63) {cs : List Char} {ls : List Lexeme}
    (hcs : Breaks cs) (hls : Spelled cs ls) :
    Spelled ((Text.bareOctal (Int64.ofNat n)).toList ++ cs)
      (.number (Text.bareOctal (Int64.ofNat n)) :: ls) := by
  obtain ⟨c, tail, hdigits⟩ := List.exists_cons_of_ne_nil (Nat.toDigits_ne_nil (n := n) (b := 8))
  have hoct : ∀ x ∈ c :: tail, Text.IsOctal x :=
    fun x hx => Text.isOctal_of_mem_toDigits (hdigits.symm ▸ hx)
  have hlist : (Text.bareOctal (Int64.ofNat n)).toList = c :: tail :=
    (Text.toList_bareOctal hn).trans hdigits
  have hspelled := Spelled.number (hoct c (by simp))
    (fun x hx => (hoct x (List.mem_cons_of_mem c hx)).isNameChar) hcs hls
  rwa [← hlist, String.ofList_toList, ← List.cons_append, ← hlist] at hspelled

end Names

/-- What the place of an operand is printed as: a number, or its label. -/
inductive PlaceText (labels : Labels) (a : UInt16) : String → Lazy → Prop
  | number : PlaceText labels a (wordOctal a) (.int (unsignedWord a))
  | label (k : Label) (hk : labels (unsignedWord a) = some k) :
    PlaceText labels a (labelName (unsignedWord a) k) (.symbol (labelName (unsignedWord a) k))

/-- An operand whose field and whose words are these; `after` is the address behind its word. -/
inductive FieldOperand (labels : Labels) (after : Int64) : UInt16 → List UInt16 → Operand → Prop
  | bare (m : Mode) (r : Register) (raw : String) :
    FieldOperand labels after (Machine.operandField m r) [] ⟨.address, m, r, none, false, raw⟩
  | word (m : Mode) (r : Register) (x : UInt16) (raw : String) :
    FieldOperand labels after (Machine.operandField m r) [x]
      ⟨.address, m, r, some (.int (unsignedWord x)), false, raw⟩
  | place (m : Mode) (x : UInt16) (s : String) (v : Lazy) (raw : String)
    (hv : PlaceText labels (Machine.wrapAddress (after + Machine.signedWord x)) s v) :
    FieldOperand labels after (Machine.operandField m .pc) [x] ⟨.address, m, .pc, some v, true, raw⟩

/-- A text that is spelled with these lexemes and read as one operand. -/
structure Printed (k : OperandKind) (s : String) (ls : List Lexeme) (q : Operand → Prop) :
    Prop where
  first : ∃ l ∈ ls.head?, l ≠ .punct ':' ∧ l ≠ .punct '='
  spelled : ∀ {cs rest}, Breaks cs → Spelled cs rest → Spelled (s.toList ++ cs) (ls ++ rest)
  reads : ReadsOperand k ls q

section Printed

variable {labels : Labels}

theorem spelled_word (x : UInt16) {cs : List Char} {ls : List Lexeme} (hcs : Breaks cs)
    (hls : Spelled cs ls) : Spelled ((wordOctal x).toList ++ cs) (.number (wordOctal x) :: ls) :=
  spelled_octal (Nat.lt_of_lt_of_le x.toNat_lt (by decide)) hcs hls

theorem isAtom_word (x : UInt16) : IsAtom (.number (wordOctal x)) (.int (unsignedWord x)) :=
  Source.isAtom_number (Nat.lt_of_lt_of_le x.toNat_lt (by decide))

/-- A place is printed as one lexeme. -/
theorem PlaceText.atom {a : UInt16} {s : String} {v : Lazy} (h : PlaceText labels a s v) :
    ∃ l, IsAtom l v ∧ ∀ {cs ls}, Breaks cs → Spelled cs ls → Spelled (s.toList ++ cs) (l :: ls) := by
  cases h with
  | number => exact ⟨_, isAtom_word a, spelled_word a⟩
  | label k hk =>
    obtain ⟨hprinted, hdotted, hreg⟩ :=
      label_name (n := a.toNat) (Nat.lt_of_lt_of_le a.toNat_lt (by decide)) k
    have hatom := Source.isAtom_name hreg hdotted
    rw [isPrintedName_upper hprinted] at hatom
    exact ⟨_, hatom, isPrintedName_spelled hprinted⟩

variable {r : Register}

theorem spelled_register (hr : r.number.toNat < 8) {cs : List Char} {ls : List Lexeme}
    (hcs : Breaks cs) (hls : Spelled cs ls) : Spelled (r.name.toList ++ cs) (.ident r.name :: ls) :=
  isPrintedName_spelled (register_name hr).1 hcs hls

theorem spelled_parentheses (hr : r.number.toNat < 8) {cs : List Char} {ls : List Lexeme}
    (hls : Spelled cs ls) :
    Spelled ('(' :: (r.name.toList ++ ')' :: cs))
      (.punct '(' :: .ident r.name :: .punct ')' :: ls) :=
  .punct rfl (spelled_register hr (breaks_cons rfl cs) (.punct rfl hls))

/-- A register is printed as its name. -/
theorem printed_register (hr : r.number.toNat < 8) :
    Printed .register r.name [.ident r.name] fun o => o.kind = .register ∧ o.register = r where
  first := ⟨_, rfl, by simp, by simp⟩
  spelled hcs hls := spelled_register hr hcs hls
  reads ts rest hts _ := by
    obtain ⟨t, rfl, ht⟩ := List.map_eq_singleton_iff.mp hts
    refine ⟨⟨.register, .register, r, none, false, ""⟩, ?_, fun _ => ⟨rfl, rfl⟩⟩
    rw [List.singleton_append, Source.operandBody, Source.registerOperand, ht, Source.registerOf?,
      (register_name hr).2]

/-- A value is printed as one lexeme, where an expression is wanted. -/
theorem printed_expression {l : Lexeme} {s : String} {v : Lazy} (hl : IsAtom l v)
    (hs : ∀ {cs ls}, Breaks cs → Spelled cs ls → Spelled (s.toList ++ cs) (l :: ls)) :
    Printed .expression s [l] fun o => o.kind = .expression ∧ o.value = some v where
  first := ⟨l, rfl, hl.notMark _, hl.notMark _⟩
  spelled := hs
  reads ts rest hts hrest := by
    obtain ⟨t, rfl, rfl⟩ := List.map_eq_singleton_iff.mp hts
    refine ⟨⟨.expression, .register, ⟨0⟩, some v, false, ""⟩, ?_, fun _ => ⟨rfl, rfl⟩⟩
    have hhash : Source.acceptPunct '#' ([t] ++ rest) = (false, [t] ++ rest) :=
      Source.acceptPunct_of_ne (by simpa using hl.notMark '#')
    rw [Source.operandBody, Source.expressionOperand, hhash]
    dsimp only
    rw [List.singleton_append, Source.lazyExpression_atom hl hrest.stops, ok_bind]

/-- An operand in an addressing mode, with or without its mark of indirection. -/
theorem printed_address (d : Bool) {s : String} (ls : List Lexeme) {q : Operand → Prop}
    (hfirst : ∃ l ∈ ls.head?, l ≠ .punct ':' ∧ l ≠ .punct '=' ∧ l ≠ .punct '@')
    (hspelled : ∀ {cs rest}, Breaks cs → Spelled cs rest → Spelled (s.toList ++ cs) (ls ++ rest))
    (hbody : ∀ ts rest, ts.map (·.lexeme) = ls → Source.AtEnd rest →
      ∃ o, Source.addressBody false d (ts ++ rest) = .ok (o, rest) ∧
        ∀ raw, q { o with raw := raw }) :
    ∃ ls', Printed .address (deferredMark d ++ s) ls' q := by
  cases d with
  | false =>
    obtain ⟨l, hl, hcolon, hequals, hat⟩ := hfirst
    refine ⟨ls, ⟨l, hl, hcolon, hequals⟩, fun hcs hls => ?_, fun ts rest hts hrest => ?_⟩
    · rw [deferredMark, if_neg (by decide), String.empty_append]
      exact hspelled hcs hls
    · cases ts with
      | nil =>
        cases hts
        cases hl
      | cons t ts =>
        cases hts
        cases hl
        obtain ⟨o, ho, hq⟩ := hbody (t :: ts) rest rfl hrest
        exact ⟨o, (Source.address_direct hat).trans ho, hq⟩
  | true =>
    refine ⟨.punct '@' :: ls, ⟨_, rfl, by decide, by decide⟩, fun hcs hls => ?_,
      fun ts rest hts hrest => ?_⟩
    · rw [deferredMark, if_pos rfl, String.toList_append]
      exact .punct rfl (hspelled hcs hls)
    · obtain ⟨m, ts, rfl, hm, hts⟩ := List.map_eq_cons_iff.mp hts
      obtain ⟨o, ho, hq⟩ := hbody ts rest hts hrest
      exact ⟨o, (Source.address_at hm).trans ho, hq⟩

section Forms

variable {after : Int64} (d : Bool)

theorem printed_immediate (x : UInt16) :
    ∃ ls, Printed .address (deferredMark d ++ ("#" ++ wordOctal x)) ls
      (FieldOperand labels after (Machine.operandField (modeOf d .autoIncrement) .pc) [x]) := by
  refine printed_address d [.punct '#', .number (wordOctal x)]
    ⟨_, rfl, by decide, by decide, by decide⟩ (fun hcs hls => ?_) fun ts rest hts hrest => ?_
  · rw [String.toList_append]
    exact .punct rfl (spelled_word x hcs hls)
  · simp only [List.map_eq_cons_iff, List.map_eq_nil_iff] at hts
    obtain ⟨m, _, rfl, hm, t, _, rfl, ht, rfl⟩ := hts
    exact ⟨_, Source.addressBody_hash d hm
      (Source.lazyExpression_atom (ht ▸ isAtom_word x) hrest.stops), fun _ => .word ..⟩

theorem printed_indexed (x : UInt16) (hr : r.number.toNat < 8) :
    ∃ ls, Printed .address (deferredMark d ++ (wordOctal x ++ "(" ++ r.name ++ ")")) ls
      (FieldOperand labels after (Machine.operandField (modeOf d .index) r) [x]) := by
  refine printed_address d [.number (wordOctal x), .punct '(', .ident r.name, .punct ')']
    ⟨_, rfl, by simp, by simp, by simp⟩ (fun hcs hls => ?_) fun ts rest hts hrest => ?_
  · have hspelled := spelled_word x (breaks_cons rfl _) (spelled_parentheses hr hls)
    simpa using hspelled
  · simp only [List.map_eq_cons_iff, List.map_eq_nil_iff] at hts
    obtain ⟨t, _, rfl, ht, a, _, rfl, ha, m, _, rfl, hm, b, _, rfl, hb, rfl⟩ := hts
    have hreg : Source.registerOf? m.lexeme = some r := hm ▸ (register_name hr).2
    exact ⟨_, Source.addressBody_indexed d (ht ▸ isAtom_word x) ha hreg hb, fun _ => .word ..⟩

theorem printed_place (x : UInt16) {s : String} {v : Lazy}
    (hv : PlaceText labels (Machine.wrapAddress (after + Machine.signedWord x)) s v) :
    ∃ ls, Printed .address (deferredMark d ++ s) ls
      (FieldOperand labels after (Machine.operandField (modeOf d .index) .pc) [x]) := by
  obtain ⟨l, hl, hspelled⟩ := hv.atom
  refine printed_address d [l] ⟨l, rfl, hl.notMark _, hl.notMark _, hl.notMark _⟩ hspelled
    fun ts rest hts hrest => ?_
  obtain ⟨t, rfl, rfl⟩ := List.map_eq_singleton_iff.mp hts
  exact ⟨_, Source.addressBody_place d hl hrest, fun _ => .place _ x s v _ hv⟩

theorem printed_stepUp (hr : r.number.toNat < 8) :
    ∃ ls, Printed .address (deferredMark d ++ ("(" ++ r.name ++ ")+")) ls
      (FieldOperand labels after (Machine.operandField (modeOf d .autoIncrement) r) []) := by
  refine printed_address d [.punct '(', .ident r.name, .punct ')', .punct '+']
    ⟨_, rfl, by decide, by decide, by decide⟩ (fun hcs hls => ?_) fun ts rest hts hrest => ?_
  · have hspelled := spelled_parentheses hr (.punct (c := '+') rfl hls)
    simpa using hspelled
  · simp only [List.map_eq_cons_iff, List.map_eq_nil_iff] at hts
    obtain ⟨a, _, rfl, ha, t, _, rfl, ht, b, _, rfl, hb, m, _, rfl, hm, rfl⟩ := hts
    have hreg : Source.registerOf? t.lexeme = some r := ht ▸ (register_name hr).2
    have hplus : Source.afterRegister d r (m :: rest) =
        (.inMode (modeOf d .autoIncrement) r, rest) := by
      rw [Source.afterRegister, Source.acceptPunct_self hm]
    exact ⟨_, (Source.addressBody_parentheses d ha hreg hb).trans (congrArg Except.ok hplus),
      fun _ => .bare ..⟩

theorem printed_stepDown (hr : r.number.toNat < 8) :
    ∃ ls, Printed .address (deferredMark d ++ ("-(" ++ r.name ++ ")")) ls
      (FieldOperand labels after (Machine.operandField (modeOf d .autoDecrement) r) []) := by
  refine printed_address d [.punct '-', .punct '(', .ident r.name, .punct ')']
    ⟨_, rfl, by decide, by decide, by decide⟩ (fun hcs hls => ?_) fun ts rest hts hrest => ?_
  · have hspelled := Spelled.punct (c := '-') rfl (spelled_parentheses hr hls)
    simpa using hspelled
  · simp only [List.map_eq_cons_iff, List.map_eq_nil_iff] at hts
    obtain ⟨m, _, rfl, hm, a, _, rfl, ha, t, _, rfl, ht, b, _, rfl, hb, rfl⟩ := hts
    have hreg : Source.registerOf? t.lexeme = some r := ht ▸ (register_name hr).2
    exact ⟨_, Source.addressBody_minus d hm ha hreg hb, fun _ => .bare ..⟩

theorem printed_direct (hr : r.number.toNat < 8) :
    ∃ ls, Printed .address r.name ls
      (FieldOperand labels after (Machine.operandField .register r) []) := by
  have h := printed_address (s := r.name)
    (q := FieldOperand labels after (Machine.operandField .register r) []) false [.ident r.name]
    ⟨_, rfl, by simp, by simp, by simp⟩ (spelled_register hr) fun ts rest hts hrest => by
      obtain ⟨t, rfl, ht⟩ := List.map_eq_singleton_iff.mp hts
      have hreg : Source.registerOf? t.lexeme = some r := ht ▸ (register_name hr).2
      exact ⟨_, Source.addressBody_register false hreg, fun _ => .bare ..⟩
  simpa [deferredMark] using h

theorem printed_throughRegister (hr : r.number.toNat < 8) :
    ∃ ls, Printed .address ("(" ++ r.name ++ ")") ls
      (FieldOperand labels after (Machine.operandField .registerDeferred r) []) := by
  have h := printed_address (s := "(" ++ r.name ++ ")")
    (q := FieldOperand labels after (Machine.operandField .registerDeferred r) []) false
    [.punct '(', .ident r.name, .punct ')'] ⟨_, rfl, by decide, by decide, by decide⟩
    (fun hcs hls => by simpa using spelled_parentheses hr hls) fun ts rest hts hrest => by
      simp only [List.map_eq_cons_iff, List.map_eq_nil_iff] at hts
      obtain ⟨a, _, rfl, ha, t, _, rfl, ht, b, _, rfl, hb, rfl⟩ := hts
      have hreg : Source.registerOf? t.lexeme = some r := ht ▸ (register_name hr).2
      have hnone : Source.acceptPunct '+' rest = (false, rest) := by
        refine Source.acceptPunct_of_ne ?_
        cases rest with
        | nil => simp
        | cons u us => simp [hrest u rfl]
      have hplus : Source.afterRegister false r rest = (.inMode .registerDeferred r, rest) := by
        rw [Source.afterRegister, hnone]
        rfl
      exact ⟨_, (Source.addressBody_parentheses false ha hreg hb).trans (congrArg Except.ok hplus),
        fun _ => .bare ..⟩
  simpa [deferredMark] using h

/-- The modes that take no word. -/
theorem mode_cases {m : Mode} (hm : m.number.toNat < 6) :
    m = .register ∨ m = .registerDeferred ∨ (∃ d, m = modeOf d .autoIncrement) ∨
      ∃ d, m = modeOf d .autoDecrement := by
  have h : ∀ n < 6, (⟨UInt16.ofNat n⟩ : Mode) = .register ∨
      (⟨UInt16.ofNat n⟩ : Mode) = .registerDeferred ∨
      (∃ d, (⟨UInt16.ofNat n⟩ : Mode) = modeOf d .autoIncrement) ∨
      ∃ d, (⟨UInt16.ofNat n⟩ : Mode) = modeOf d .autoDecrement := by decide
  simpa using h m.number.toNat hm

theorem printed_plain {m : Mode} (hm : m.number.toNat < 6) (hr : r.number.toNat < 8) :
    ∃ ls, Printed .address (plainText m r) ls
      (FieldOperand labels after (Machine.operandField m r) []) := by
  rcases mode_cases hm with rfl | rfl | ⟨d, rfl⟩ | ⟨d, rfl⟩
  · exact printed_direct hr
  · exact printed_throughRegister hr
  · have htext : plainText (modeOf d .autoIncrement) r =
        deferredMark d ++ ("(" ++ r.name ++ ")+") := by
      cases d with
      | false => exact (String.empty_append).symm
      | true =>
        change "@(" ++ r.name ++ ")+" = "@" ++ ("(" ++ r.name ++ ")+")
        exact String.toList_inj.mp (by simp)
    rw [htext]
    exact printed_stepUp d hr
  · have htext : plainText (modeOf d .autoDecrement) r =
        deferredMark d ++ ("-(" ++ r.name ++ ")") := by
      cases d with
      | false => exact (String.empty_append).symm
      | true =>
        change "@-(" ++ r.name ++ ")" = "@" ++ ("-(" ++ r.name ++ ")")
        exact String.toList_inj.mp (by simp)
    rw [htext]
    exact printed_stepDown d hr

end Forms

/-- The texts of an operand: its own, or one with the label of its place. -/
inductive Shown (labels : Labels) : Arg → String → Prop
  | own (arg : Arg) : Shown labels arg arg.text
  | label (d : Bool) (a : UInt16) (k : Label) (hk : labels (unsignedWord a) = some k) :
    Shown labels (.place d a) (deferredMark d ++ labelName (unsignedWord a) k)

theorem Shown.place {d : Bool} {a : UInt16} {s : String} (h : Shown labels (.place d a) s) :
    ∃ s' v, s = deferredMark d ++ s' ∧ PlaceText labels a s' v := by
  cases h with
  | own => exact ⟨_, _, rfl, .number⟩
  | label _ _ k hk => exact ⟨_, _, rfl, .label k hk⟩

theorem shown_labelledArgs (labels : Labels) (args : List Arg) :
    List.Forall₂ (Shown labels) args (labelledArgs labels args) := by
  have hown : ∀ args : List Arg, List.Forall₂ (Shown labels) args (args.map Arg.text) := by
    intro args
    induction args with
    | nil => exact .nil
    | cons arg args ih => exact .cons (.own arg) ih
  induction args with
  | nil => exact .nil
  | cons arg args ih =>
    cases arg with
    | place d a =>
      refine .cons ?_ (hown args)
      cases hk : labels (unsignedWord a) with
      | none => exact .own _
      | some k => exact .label d a k hk
    | _ => exact .cons (.own _) ih

/-- The words between two places in the code. -/
structure Took (c : Cursor) (xs : List UInt16) (c' : Cursor) : Prop where
  rest : c.rest = Machine.wordsToBytes xs ++ c'.rest
  address : c'.address = c.address + Int64.ofNat (2 * xs.length)
  taken : c'.taken = xs.reverse ++ c.taken

theorem Took.refl (c : Cursor) : Took c [] c := ⟨rfl, by simp, rfl⟩

theorem Took.trans {c c' c'' : Cursor} {xs ys : List UInt16} (h : Took c xs c')
    (h' : Took c' ys c'') : Took c (xs ++ ys) c'' := by
  refine ⟨?_, ?_, ?_⟩
  · rw [h.rest, h'.rest, Machine.wordsToBytes, Machine.wordsToBytes, Machine.wordsToBytes,
      List.flatMap_append, List.append_assoc]
  · rw [h'.address, h.address, List.length_append, Nat.mul_add, Int64.ofNat_add, Int64.add_assoc]
  · rw [h'.taken, h.taken, List.reverse_append, List.append_assoc]

theorem took_next {c c' : Cursor} {x : UInt16} (h : c.next? = some (x, c')) : Took c [x] c' := by
  unfold Cursor.next? at h
  split at h
  · rename_i low high rest hrest
    cases h
    refine ⟨?_, rfl, rfl⟩
    rw [Machine.wordsToBytes, List.flatMap_singleton, Machine.bytesOfWord_wordOfBytes, hrest]
    rfl
  · cases h

/-- The mode of a field that takes no word is one of those printed with the register alone. -/
theorem mode_lt_of_noExtraWord {m : Mode} {r : Register} (hm : m.number.toNat < 8)
    (h : m.hasExtraWord r = false) : m.number.toNat < 6 := by
  have hindex : m ≠ .index ∧ m ≠ .indexDeferred := by
    constructor
    · rintro rfl
      cases h
    · rintro rfl
      cases h
  have h6 : m.number.toNat ≠ 6 := fun h6 => hindex.1 (Machine.Mode.eq_of_toNat h6)
  have h7 : m.number.toNat ≠ 7 := fun h7 => hindex.2 (Machine.Mode.eq_of_toNat h7)
  omega

/-- What an operand with a word is printed as. -/
theorem printed_extraArg {m : Mode} (hm : m.number.toNat < 8) (hr : r.number.toNat < 8)
    (hx : m.hasExtraWord r = true) (x : UInt16) (after : Int64) {s : String}
    (hs : Shown labels (extraArg m r x after) s) :
    ∃ ls, Printed .address s ls (FieldOperand labels after (Machine.operandField m r) [x]) := by
  unfold Mode.hasExtraWord at hx
  split_ifs at hx with hindex hstep
  · obtain ⟨d, rfl⟩ : ∃ d, m = modeOf d .index := by
      rcases (by simpa using hindex : m = .index ∨ m = .indexDeferred) with rfl | rfl
      · exact ⟨false, rfl⟩
      · exact ⟨true, rfl⟩
    by_cases hpc : r = .pc
    · subst hpc
      rw [extraArg_index_pc] at hs
      obtain ⟨s', v, rfl, hv⟩ := hs.place
      exact printed_place d x hv
    · rw [extraArg_index hpc] at hs
      cases hs
      have h := @printed_indexed labels r after d x hr
      simpa [Arg.text, String.append_assoc] using h
  · obtain rfl : r = .pc := by simpa using hx
    rcases (by simpa using hstep : m = .autoIncrement ∨ m = .autoIncrementDeferred) with rfl | rfl
    · change Shown labels (.immediate x) s at hs
      cases hs
      have htext : (Arg.immediate x).text = deferredMark false ++ ("#" ++ wordOctal x) :=
        String.empty_append.symm
      rw [htext]
      exact printed_immediate false x
    · change Shown labels (.absolute x) s at hs
      cases hs
      have htext : (Arg.absolute x).text = deferredMark true ++ ("#" ++ wordOctal x) :=
        String.toList_inj.mp (by simp [Arg.text, deferredMark])
      rw [htext]
      exact printed_immediate true x

/-- A decoded field is printed as an operand with the same field and words. -/
theorem printed_operandArg {f : UInt16} (hf : f.toNat < 64) {c c' : Cursor} {arg : Arg}
    (h : operandArg f c = some (arg, c')) :
    ∃ xs, Took c xs c' ∧ ∀ {s}, Shown labels arg s →
      ∃ ls, Printed .address s ls (FieldOperand labels (c.address + 2) f xs) := by
  have hm : (Machine.fieldMode f).number.toNat < 8 := by
    rw [Machine.number_fieldMode]
    omega
  have hr : (Machine.fieldRegister f).number.toNat < 8 := by
    rw [Machine.number_fieldRegister]
    omega
  have hfield := Machine.operandField_fieldMode_fieldRegister hf
  unfold operandArg at h
  dsimp only at h
  split_ifs at h with hx
  · obtain ⟨⟨x, c₁⟩, hnext, h⟩ := Option.bind_eq_some_iff.mp h
    cases h
    have htook := took_next hnext
    refine ⟨[x], htook, fun hs => ?_⟩
    have hextra := printed_extraArg hm hr hx x _ (htook.address ▸ hs)
    rwa [hfield] at hextra
  · cases h
    refine ⟨[], .refl _, fun hs => ?_⟩
    cases hs
    have hplain := @printed_plain labels _ (c.address + 2) _
      (mode_lt_of_noExtraWord hm (by simpa using hx)) hr
    rwa [hfield] at hplain

end Printed

end Eleven.Disassembly

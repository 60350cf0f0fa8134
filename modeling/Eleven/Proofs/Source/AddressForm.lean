import Eleven.Proofs.Source.Parsing

/-! The forms of operands in addressing modes: the reader takes these and no others. -/
namespace Eleven.Source

open Eleven.Machine (Mode Register)

/-- A name of a register. -/
structure RegisterName where
  name : String
  register : Register
  named : Register.ofName? name = some register

/-- Lexemes that an expression is written with. -/
structure ExprText (decimal : Bool) where
  lexemes : List Lexeme
  written : ∃ x : ExprTree decimal, x.Written .sum lexemes

/-- What an operand consists of behind its `@`, if it has one. -/
inductive AddressShape (decimal : Bool) where
  /-- `Rn` -/
  | register (r : RegisterName)
  /-- `(Rn)` -/
  | indirect (r : RegisterName)
  /-- `(Rn)+` -/
  | stepUp (r : RegisterName)
  /-- `-(Rn)` -/
  | stepDown (r : RegisterName)
  /-- `e(Rn)` -/
  | indexed (e : ExprText decimal) (r : RegisterName)
  /-- `#e` -/
  | immediate (e : ExprText decimal)
  /-- `e` -/
  | place (e : ExprText decimal)

/-- A shape, with or without an `@` in front of it. -/
structure AddressForm (decimal : Bool) where
  deferred : Bool
  shape : AddressShape decimal

def RegisterName.lexeme (r : RegisterName) : Lexeme := .ident r.name

/-- The value comes to what the expression means, in every context. -/
def ExprText.Means {decimal : Bool} (e : ExprText decimal) (v : Lazy) : Prop :=
  ∀ x : ExprTree decimal, x.Written .sum e.lexemes →
    ∀ (σ : Type) (look : String → Attempt σ Datum), v.resolveInt look = x.meaning look

def AddressShape.lexemes {decimal : Bool} : AddressShape decimal → List Lexeme
  | .register r => [r.lexeme]
  | .indirect r => parentheses [r.lexeme]
  | .stepUp r => parentheses [r.lexeme] ++ [.punct '+']
  | .stepDown r => .punct '-' :: parentheses [r.lexeme]
  | .indexed e r => e.lexemes ++ parentheses [r.lexeme]
  | .immediate e => .punct '#' :: e.lexemes
  | .place e => e.lexemes

namespace AddressForm

variable {decimal : Bool}

def lexemes : AddressForm decimal → List Lexeme
  | ⟨false, s⟩ => s.lexemes
  | ⟨true, s⟩ => .punct '@' :: s.lexemes

def mode : AddressForm decimal → Mode
  | ⟨false, .register _⟩ => .register
  | ⟨true, .register _⟩ => .registerDeferred
  | ⟨false, .indirect _⟩ => .registerDeferred
  | ⟨true, .indirect _⟩ => .indexDeferred
  | ⟨false, .stepUp _⟩ => .autoIncrement
  | ⟨true, .stepUp _⟩ => .autoIncrementDeferred
  | ⟨false, .stepDown _⟩ => .autoDecrement
  | ⟨true, .stepDown _⟩ => .autoDecrementDeferred
  | ⟨false, .indexed _ _⟩ => .index
  | ⟨true, .indexed _ _⟩ => .indexDeferred
  | ⟨false, .immediate _⟩ => .autoIncrement
  | ⟨true, .immediate _⟩ => .autoIncrementDeferred
  | ⟨false, .place _⟩ => .index
  | ⟨true, .place _⟩ => .indexDeferred

/-- Immediate operands and places are reached through the program counter. -/
def register (f : AddressForm decimal) : Register :=
  match f.shape with
  | .register r => r.register
  | .indirect r => r.register
  | .stepUp r => r.register
  | .stepDown r => r.register
  | .indexed _ r => r.register
  | .immediate _ => .pc
  | .place _ => .pc

def relative (f : AddressForm decimal) : Bool :=
  match f.shape with
  | .place _ => true
  | _ => false

/-- The word that the operand takes, if it takes one. As no mode is `@(Rn)`, it is `@0(Rn)`. -/
def Carries : AddressForm decimal → Option Lazy → Prop
  | ⟨true, .indirect _⟩, v => v = some (.int 0)
  | ⟨_, .indexed e _⟩, v => ∃ w, v = some w ∧ e.Means w
  | ⟨_, .immediate e⟩, v => ∃ w, v = some w ∧ e.Means w
  | ⟨_, .place e⟩, v => ∃ w, v = some w ∧ e.Means w
  | _, v => v = none

/-- The operand is what the form stands for. -/
structure Prescribes (f : AddressForm decimal) (o : Operand) : Prop where
  kind : o.kind = .address
  mode : o.mode = f.mode
  register : o.register = f.register
  relative : o.relative = f.relative
  value : f.Carries o.value

/-- The form makes up the tokens before `rest`, where the line ends or a comma stands. -/
def Stands (f : AddressForm decimal) (ts rest : List Token) : Prop :=
  AtEnd rest ∧ ∃ form, ts = form ++ rest ∧ form.map (·.lexeme) = f.lexemes

end AddressForm

section Complete

variable {decimal : Bool}

/-- Every reading of the lexemes gives the same value. -/
theorem ExprText.means_of_written {e : ExprText decimal} {x : ExprTree decimal}
    (hx : x.Written .sum e.lexemes) : e.Means x.expr.toLazy := by
  intro y hy σ look
  rw [hx.expr_unique hy]
  exact y.resolveInt_expr look

theorem RegisterName.registerOf?_lexeme (r : RegisterName) :
    registerOf? r.lexeme = some r.register := r.named

theorem RegisterName.tokens_parentheses {r : RegisterName} {form : List Token}
    (h : form.map (·.lexeme) = parentheses [r.lexeme]) :
    ∃ a t b, form = [a, t, b] ∧ a.lexeme = .punct '(' ∧ registerOf? t.lexeme = some r.register ∧
      b.lexeme = .punct ')' := by
  simp only [parentheses, List.map_eq_cons_iff, List.cons_append, List.nil_append,
    List.map_eq_nil_iff] at h
  obtain ⟨a, _, rfl, ha, t, _, rfl, ht, b, _, rfl, hb, rfl⟩ := h
  exact ⟨a, t, b, rfl, ha, ht ▸ r.registerOf?_lexeme, hb⟩

/-- Each shape is read as what it stands for. -/
theorem AddressShape.addressBody_eq (s : AddressShape decimal) (d : Bool) {form rest : List Token}
    (hform : form.map (·.lexeme) = s.lexemes) (hrest : AtEnd rest) :
    ∃ o, addressBody decimal d (form ++ rest) = .ok (o, rest) ∧
      (⟨d, s⟩ : AddressForm decimal).Prescribes o := by
  cases s with
  | register r =>
    obtain ⟨t, rfl, ht⟩ := List.map_eq_singleton_iff.mp hform
    have hr : registerOf? t.lexeme = some r.register := ht ▸ r.registerOf?_lexeme
    refine ⟨_, addressBody_register d hr, ?_⟩
    cases d <;> exact ⟨rfl, rfl, rfl, rfl, rfl⟩
  | indirect r =>
    obtain ⟨a, t, b, rfl, ha, hr, hb⟩ := RegisterName.tokens_parentheses hform
    have hplus : acceptPunct '+' rest = (false, rest) :=
      acceptPunct_of_ne fun hm => by
        obtain ⟨u, hu, hlexeme⟩ := Option.map_eq_some_iff.mp (List.head?_map.symm.trans hm)
        rw [hrest u hu] at hlexeme
        cases hlexeme
    have hbody : addressBody decimal d (a :: t :: b :: rest) =
        .ok (afterRegister d r.register rest) := addressBody_parentheses d ha hr hb
    rw [afterRegister, hplus] at hbody
    cases d <;> exact ⟨_, hbody, rfl, rfl, rfl, rfl, rfl⟩
  | stepUp r =>
    obtain ⟨us, vs, rfl, hus, hvs⟩ := List.map_eq_append_iff.mp hform
    obtain ⟨a, t, b, rfl, ha, hr, hb⟩ := RegisterName.tokens_parentheses hus
    obtain ⟨m, rfl, hm⟩ := List.map_eq_singleton_iff.mp hvs
    have hbody : addressBody decimal d (a :: t :: b :: m :: rest) =
        .ok (afterRegister d r.register (m :: rest)) := addressBody_parentheses d ha hr hb
    rw [afterRegister, acceptPunct_self hm] at hbody
    cases d <;> exact ⟨_, hbody, rfl, rfl, rfl, rfl, rfl⟩
  | stepDown r =>
    obtain ⟨m, us, rfl, hm, hus⟩ := List.map_eq_cons_iff.mp hform
    obtain ⟨a, t, b, rfl, ha, hr, hb⟩ := RegisterName.tokens_parentheses hus
    refine ⟨_, addressBody_minus d hm ha hr hb, ?_⟩
    cases d <;> exact ⟨rfl, rfl, rfl, rfl, rfl⟩
  | indexed e r =>
    obtain ⟨x, hx⟩ := e.written
    obtain ⟨ts, us, rfl, hts, hus⟩ := List.map_eq_append_iff.mp hform
    obtain ⟨a, t, b, rfl, ha, hr, hb⟩ := RegisterName.tokens_parentheses hus
    rw [List.append_assoc]
    refine ⟨_, addressBody_writtenIndexed d (hts.symm ▸ hx) ha hr hb, ?_⟩
    cases d <;> exact ⟨rfl, rfl, rfl, rfl, _, rfl, ExprText.means_of_written hx⟩
  | immediate e =>
    obtain ⟨x, hx⟩ := e.written
    obtain ⟨m, ts, rfl, hm, hts⟩ := List.map_eq_cons_iff.mp hform
    have hv : lazyExpression decimal (ts ++ rest) = .ok (x.expr.toLazy, rest) :=
      ExprTree.Written.lazyExpression_eq (hts.symm ▸ hx) hrest.stops
    refine ⟨_, addressBody_hash d hm hv, ?_⟩
    cases d <;> exact ⟨rfl, rfl, rfl, rfl, _, rfl, ExprText.means_of_written hx⟩
  | place e =>
    obtain ⟨x, hx⟩ := e.written
    change form.map (·.lexeme) = e.lexemes at hform
    refine ⟨_, addressBody_writtenPlace d (hform.symm ▸ hx) hrest, ?_⟩
    cases d <;> exact ⟨rfl, rfl, rfl, rfl, _, rfl, ExprText.means_of_written hx⟩

/-- No shape starts with `@`. -/
theorem AddressShape.lexemes_eq_cons (s : AddressShape decimal) :
    ∃ l ls, s.lexemes = l :: ls ∧ l ≠ .punct '@' := by
  have hexpr : ∀ (e : ExprText decimal) (more : List Lexeme),
      ∃ l ls, e.lexemes ++ more = l :: ls ∧ l ≠ .punct '@' := by
    intro e more
    obtain ⟨x, hx⟩ := e.written
    obtain ⟨l, ls, hl⟩ := List.exists_cons_of_ne_nil hx.ne_nil
    have hnot : Lexeme.punct '@' ∉ e.lexemes := hx.not_mem (by decide)
    refine ⟨l, ls ++ more, by rw [hl, List.cons_append], fun hat => hnot ?_⟩
    rw [hl, hat]
    exact List.mem_cons_self
  cases s with
  | register r => exact ⟨r.lexeme, [], rfl, by simp [RegisterName.lexeme]⟩
  | indexed e r => exact hexpr e _
  | place e =>
    obtain ⟨l, ls, hl, hat⟩ := hexpr e []
    rw [List.append_nil] at hl
    exact ⟨l, ls, hl, hat⟩
  | _ => exact ⟨_, _, rfl, by decide⟩

theorem AddressForm.Prescribes.setRaw {f : AddressForm decimal} {o : Operand} (h : f.Prescribes o)
    (raw : String) : f.Prescribes { o with raw := raw } :=
  ⟨h.kind, h.mode, h.register, h.relative, h.value⟩

theorem AddressForm.Stands.operand_eq {f : AddressForm decimal} {ts rest : List Token}
    (h : f.Stands ts rest) :
    ∃ o, operand decimal .address ts = .ok (o, rest) ∧ f.Prescribes o := by
  obtain ⟨d, s⟩ := f
  obtain ⟨hrest, form, rfl, hform⟩ := h
  obtain ⟨o, ho, hf⟩ : ∃ o, address decimal (form ++ rest) = .ok (o, rest) ∧
      (⟨d, s⟩ : AddressForm decimal).Prescribes o := by
    cases d with
    | true =>
      obtain ⟨m, us, rfl, hm, hus⟩ := List.map_eq_cons_iff.mp hform
      rw [List.cons_append, address_at hm]
      exact s.addressBody_eq true hus hrest
    | false =>
      obtain ⟨l, ls, hl, hat⟩ := s.lexemes_eq_cons
      obtain ⟨t, us, rfl, ht, -⟩ := List.map_eq_cons_iff.mp (hform.trans hl)
      rw [List.cons_append, address_direct (ht ▸ hat)]
      exact s.addressBody_eq false hform hrest
  exact ⟨_, operand_eq_ok.mpr ⟨hrest, o, ho, rfl⟩, hf.setRaw _⟩

end Complete

section Sound

variable {decimal : Bool} {ts rest : List Token} {r : Register}

theorem RegisterName.exists_of_registerOf? {l : Lexeme} (h : registerOf? l = some r) :
    ∃ n : RegisterName, n.lexeme = l := by
  cases l with
  | ident name => exact ⟨⟨name, r, h⟩, rfl⟩
  | _ => cases h

/-- A register in parentheses is the three lexemes that write it. -/
theorem parenthesized?_eq_some (h : parenthesized? ts = some (r, rest)) :
    ∃ (n : RegisterName) (form : List Token),
      ts = form ++ rest ∧ form.map (·.lexeme) = parentheses [n.lexeme] := by
  unfold parenthesized? at h
  split at h
  · rename_i a t b us
    split_ifs at h with hmarks
    obtain ⟨r', hr', heq⟩ := Option.map_eq_some_iff.mp h
    cases heq
    obtain ⟨n, hn⟩ := RegisterName.exists_of_registerOf? hr'
    exact ⟨n, [a, t, b], rfl, by simp [parentheses, hmarks.1, hmarks.2, hn]⟩
  · cases h

theorem autoDecrement?_eq_some (h : autoDecrement? ts = some (r, rest)) :
    ∃ (n : RegisterName) (form : List Token),
      ts = form ++ rest ∧ form.map (·.lexeme) = .punct '-' :: parentheses [n.lexeme] := by
  cases ts with
  | nil => cases h
  | cons m us =>
    rw [autoDecrement?] at h
    split_ifs at h with hm
    obtain ⟨n, form, rfl, hform⟩ := parenthesized?_eq_some h
    exact ⟨n, m :: form, rfl, by rw [List.map_cons, hm, hform]⟩

/-- The tokens before `rest` are those of a shape. -/
def HasShape (decimal : Bool) (ts rest : List Token) : Prop :=
  ∃ (s : AddressShape decimal) (form : List Token),
    ts = form ++ rest ∧ form.map (·.lexeme) = s.lexemes

theorem hasShape_of_afterRegister {d : Bool} {us : List Token} {o : Operand}
    (hp : parenthesized? ts = some (r, us)) (h : afterRegister d r us = (o, rest)) :
    HasShape decimal ts rest := by
  obtain ⟨n, form, rfl, hform⟩ := parenthesized?_eq_some hp
  unfold afterRegister at h
  split at h
  · rename_i vs hplus
    cases h
    obtain ⟨m, rfl, hm⟩ := acceptPunct_eq_true hplus
    refine ⟨.stepUp n, form ++ [m], by simp, ?_⟩
    rw [List.map_append, hform, List.map_singleton, hm]
    rfl
  · rename_i vs hplus
    have hvs : vs = us := by
      cases us with
      | nil => cases hplus; rfl
      | cons u us =>
        rw [acceptPunct] at hplus
        split_ifs at hplus
        · cases hplus
        · cases hplus; rfl
    have hrest : rest = us := by
      split_ifs at h <;> cases h <;> exact hvs
    exact ⟨.indirect n, form, by rw [hrest], hform⟩

theorem hasShape_of_indexed {d : Bool} {o : Operand} (h : indexed decimal d ts = .ok (o, rest)) :
    HasShape decimal ts rest := by
  obtain ⟨⟨v, us⟩, hv, hafter⟩ := bind_eq_ok.mp h
  obtain ⟨x, form, rfl, hx, -⟩ := ExprTree.exists_of_lazyExpression hv
  dsimp only at hafter
  split at hafter
  · rename_i r us' hp
    cases hafter
    obtain ⟨n, form', rfl, hform'⟩ := parenthesized?_eq_some hp
    refine ⟨.indexed ⟨_, x, hx⟩ n, form ++ form', by rw [List.append_assoc], ?_⟩
    rw [List.map_append, hform']
    rfl
  · cases hafter
    exact ⟨.place ⟨_, x, hx⟩, form, rfl, rfl⟩

/-- Whatever is read has one of the shapes. -/
theorem hasShape_of_addressBody {d : Bool} {o : Operand}
    (h : addressBody decimal d ts = .ok (o, rest)) : HasShape decimal ts rest := by
  unfold addressBody at h
  split at h
  · rename_i us hhash
    obtain ⟨m, rfl, hm⟩ := acceptPunct_eq_true hhash
    obtain ⟨⟨v, vs⟩, hv, heq⟩ := bind_eq_ok.mp h
    cases heq
    obtain ⟨x, form, rfl, hx, -⟩ := ExprTree.exists_of_lazyExpression hv
    refine ⟨.immediate ⟨_, x, hx⟩, m :: form, rfl, ?_⟩
    rw [List.map_cons, hm]
    rfl
  · split at h
    · rename_i r us hd
      cases h
      obtain ⟨n, form, hts, hform⟩ := autoDecrement?_eq_some hd
      exact ⟨.stepDown n, form, hts, hform⟩
    · split at h
      · rename_i r us hp
        exact hasShape_of_afterRegister hp (Except.ok.inj h)
      · cases ts with
        | nil => exact hasShape_of_indexed h
        | cons t us =>
          dsimp only at h
          split at h
          · rename_i r hr
            cases h
            obtain ⟨n, hn⟩ := RegisterName.exists_of_registerOf? hr
            exact ⟨.register n, [t], rfl, by rw [List.map_singleton, ← hn]; rfl⟩
          · exact hasShape_of_indexed h

theorem exists_stands_of_operand {o : Operand} (h : operand decimal .address ts = .ok (o, rest)) :
    ∃ f : AddressForm decimal, f.Stands ts rest := by
  obtain ⟨hrest, o', hbody, -⟩ := operand_eq_ok.mp h
  change address decimal ts = .ok (o', rest) at hbody
  by_cases hat : (ts.map (·.lexeme)).head? = some (.punct '@')
  · obtain ⟨m, us, rfl⟩ : ∃ m us, ts = m :: us := by
      cases ts with
      | nil => cases hat
      | cons m us => exact ⟨m, us, rfl⟩
    have hm : m.lexeme = .punct '@' := by simpa using hat
    rw [address_at hm] at hbody
    obtain ⟨s, form, rfl, hform⟩ := hasShape_of_addressBody hbody
    refine ⟨⟨true, s⟩, hrest, m :: form, rfl, ?_⟩
    rw [List.map_cons, hm, hform]
    rfl
  · rw [address, acceptPunct_of_ne hat] at hbody
    obtain ⟨s, form, hts, hform⟩ := hasShape_of_addressBody hbody
    exact ⟨⟨false, s⟩, hrest, form, hts, hform⟩

end Sound

section Unique

variable {decimal : Bool}

theorem RegisterName.eq_of_lexeme {r r' : RegisterName} (h : r.lexeme = r'.lexeme) : r = r' := by
  obtain ⟨name, register, named⟩ := r
  obtain ⟨name', register', named'⟩ := r'
  cases h
  cases named.symm.trans named'
  rfl

theorem ExprText.eq_of_lexemes {e e' : ExprText decimal} (h : e.lexemes = e'.lexemes) : e = e' := by
  cases e
  cases e'
  cases h
  rfl

theorem ExprText.registerOf?_eq (e : ExprText decimal) {l : Lexeme} (hl : l ∈ e.lexemes) :
    registerOf? l = none := by
  obtain ⟨x, hx⟩ := e.written
  exact hx.registerOf?_eq hl

namespace AddressShape

/-- The register of a shape with what stands before it and behind it. -/
def around : AddressShape decimal → Option (List Lexeme × RegisterName × List Lexeme)
  | .register r => some ([], r, [])
  | .indirect r => some ([.punct '('], r, [.punct ')'])
  | .stepUp r => some ([.punct '('], r, [.punct ')', .punct '+'])
  | .stepDown r => some ([.punct '-', .punct '('], r, [.punct ')'])
  | .indexed e r => some (e.lexemes ++ [.punct '('], r, [.punct ')'])
  | .immediate _ => none
  | .place _ => none

theorem lexemes_of_around {s : AddressShape decimal} {before after : List Lexeme}
    {r : RegisterName} (h : s.around = some (before, r, after)) :
    s.lexemes = before ++ r.lexeme :: after ∧ (∀ l ∈ before, registerOf? l = none) ∧
      ∀ l ∈ after, registerOf? l = none := by
  cases s with
  | indexed e r' =>
    cases h
    refine ⟨by simp [lexemes, parentheses], fun l hl => ?_, by simp [registerOf?]⟩
    rcases List.mem_append.mp hl with hl | hl
    · exact e.registerOf?_eq hl
    · rw [List.mem_singleton.mp hl]
      rfl
  | immediate e => cases h
  | place e => cases h
  | _ =>
    cases h
    exact ⟨rfl, by simp [registerOf?], by simp [registerOf?]⟩

theorem registerOf?_of_around {s : AddressShape decimal} (h : s.around = none) {l : Lexeme}
    (hl : l ∈ s.lexemes) : registerOf? l = none := by
  cases s with
  | immediate e =>
    rcases List.mem_cons.mp hl with rfl | hl
    · rfl
    · exact e.registerOf?_eq hl
  | place e => exact e.registerOf?_eq hl
  | _ => cases h

/-- Only an indexed register has an expression in front of it, which a bare `-` is not. -/
theorem eq_indexed_of_around {s : AddressShape decimal} {e : ExprText decimal} {r : RegisterName}
    (h : s.around = some (e.lexemes ++ [.punct '('], r, [.punct ')'])) : s = .indexed e r := by
  obtain ⟨x, hx⟩ := e.written
  have hcancel : ∀ ls : List Lexeme, ls ++ [.punct '('] = e.lexemes ++ [.punct '('] →
      ls = e.lexemes := fun _ hls => List.append_cancel_right hls
  cases s with
  | register r' =>
    have hlexemes := congrArg Prod.fst (Option.some.inj h)
    exact absurd hlexemes.symm (List.append_ne_nil_of_right_ne_nil _ (List.cons_ne_nil _ _))
  | indirect r' =>
    have hlexemes := congrArg Prod.fst (Option.some.inj h)
    exact absurd (hcancel [] hlexemes).symm hx.ne_nil
  | stepUp r' =>
    have hafter : [Lexeme.punct ')', .punct '+'] = [.punct ')'] :=
      congrArg (·.2.2) (Option.some.inj h)
    exact absurd hafter (by decide)
  | stepDown r' =>
    have hlexemes := congrArg Prod.fst (Option.some.inj h)
    obtain ⟨y, hy⟩ := hx.of_sign .minus (hcancel [.punct '-'] hlexemes).symm
    exact absurd rfl hy.ne_nil
  | indexed e' r' =>
    have hlexemes := congrArg Prod.fst (Option.some.inj h)
    have hr : r' = r := congrArg (·.2.1) (Option.some.inj h)
    rw [ExprText.eq_of_lexemes (hcancel _ hlexemes), hr]
  | immediate e' => cases h
  | place e' => cases h

theorem eq_of_around {s s' : AddressShape decimal} {a : List Lexeme × RegisterName × List Lexeme}
    (h : s.around = some a) (h' : s'.around = some a) : s = s' := by
  have hsame := h.trans h'.symm
  cases s with
  | indexed e r => exact (eq_indexed_of_around hsame.symm).symm
  | immediate e => cases h
  | place e => cases h
  | _ =>
    cases s' with
    | indexed e r => exact eq_indexed_of_around hsame
    | _ => cases hsame <;> rfl

/-- No two shapes are written alike. A register splits the lexemes around it in one way only. -/
theorem eq_of_lexemes {s s' : AddressShape decimal} (h : s.lexemes = s'.lexemes) : s = s' := by
  have hmixed : ∀ {s s' : AddressShape decimal} {a}, s.around = some a → s'.around = none →
      s.lexemes ≠ s'.lexemes := by
    rintro s s' ⟨before, r, after⟩ ha hnone hlexemes
    obtain ⟨hs, -, -⟩ := lexemes_of_around ha
    have hmem : r.lexeme ∈ s'.lexemes := by simp [← hlexemes, hs]
    cases r.registerOf?_lexeme.symm.trans (registerOf?_of_around hnone hmem)
  cases ha : s.around with
  | some a =>
    cases ha' : s'.around with
    | none => exact absurd h (hmixed ha ha')
    | some a' =>
      obtain ⟨before, r, after⟩ := a
      obtain ⟨before', r', after'⟩ := a'
      obtain ⟨hs, hbefore, hafter⟩ := lexemes_of_around ha
      obtain ⟨hs', -, -⟩ := lexemes_of_around ha'
      have hnot : ∀ ls : List Lexeme, (∀ l ∈ ls, registerOf? l = none) → r'.lexeme ∉ ls :=
        fun ls hls hmem => nomatch r'.registerOf?_lexeme.symm.trans (hls _ hmem)
      obtain ⟨rfl, hr, rfl⟩ := (List.append_cons_inj_of_notMem (hnot _ hbefore)
        (hnot _ hafter)).mp (hs.symm.trans (h.trans hs'))
      cases RegisterName.eq_of_lexeme hr
      exact eq_of_around ha ha'
  | none =>
    cases ha' : s'.around with
    | some a' => exact absurd h.symm (hmixed ha' ha)
    | none =>
      have hhash : ∀ e e' : ExprText decimal, .punct '#' :: e.lexemes ≠ e'.lexemes := by
        intro e e' he
        obtain ⟨x, hx⟩ := e'.written
        exact hx.not_mem (c := '#') (by decide) (he ▸ List.mem_cons_self)
      cases s with
      | immediate e =>
        cases s' with
        | immediate e' => rw [ExprText.eq_of_lexemes (List.cons.inj h).2]
        | place e' => exact absurd h (hhash e e')
        | _ => cases ha'
      | place e =>
        cases s' with
        | immediate e' => exact absurd h.symm (hhash e' e)
        | place e' => rw [ExprText.eq_of_lexemes h]
        | _ => cases ha'
      | _ => cases ha

end AddressShape

namespace AddressForm

theorem eq_of_lexemes {f g : AddressForm decimal} (h : f.lexemes = g.lexemes) : f = g := by
  have hat : ∀ s s' : AddressShape decimal, .punct '@' :: s.lexemes ≠ s'.lexemes := by
    intro s s' hs
    obtain ⟨l, ls, hl, hne⟩ := s'.lexemes_eq_cons
    exact hne (List.cons.inj (hs.trans hl)).1.symm
  obtain ⟨d, s⟩ := f
  obtain ⟨d', s'⟩ := g
  cases d <;> cases d'
  · rw [AddressShape.eq_of_lexemes h]
  · exact absurd h.symm (hat s' s)
  · exact absurd h (hat s s')
  · rw [AddressShape.eq_of_lexemes (List.cons.inj h).2]

/-- The reader is a function, so both forms leave the same tokens over. -/
theorem Stands.unique {f g : AddressForm decimal} {ts rest rest' : List Token}
    (hf : f.Stands ts rest) (hg : g.Stands ts rest') : g = f ∧ rest' = rest := by
  obtain ⟨o, ho, -⟩ := hf.operand_eq
  obtain ⟨o', ho', -⟩ := hg.operand_eq
  obtain rfl : rest' = rest := congrArg Prod.snd (Except.ok.inj (ho'.symm.trans ho))
  obtain ⟨-, form, rfl, hform⟩ := hf
  obtain ⟨-, form', hts, hform'⟩ := hg
  obtain rfl := List.append_cancel_right hts
  exact ⟨eq_of_lexemes (hform'.symm.trans hform), rfl⟩

end AddressForm

end Unique

/-- An operand is read exactly when the tokens start with a form that the line or a comma ends. Then
that form is the only one, its tokens are all that is taken, and the operand is the one that it
stands for. -/
theorem operand_address_iff (decimal : Bool) (ts : List Token) :
    ((∃ o rest, operand decimal .address ts = .ok (o, rest)) ↔
      ∃ (f : AddressForm decimal) (rest : List Token), f.Stands ts rest) ∧
    ∀ (f : AddressForm decimal) (rest : List Token), f.Stands ts rest →
      (∃ o, operand decimal .address ts = .ok (o, rest) ∧ f.Prescribes o) ∧
      ∀ (g : AddressForm decimal) (rest' : List Token), g.Stands ts rest' →
        g = f ∧ rest' = rest := by
  refine ⟨⟨?_, ?_⟩, ?_⟩
  · rintro ⟨o, rest, h⟩
    obtain ⟨f, hf⟩ := exists_stands_of_operand h
    exact ⟨f, rest, hf⟩
  · rintro ⟨f, rest, hf⟩
    obtain ⟨o, ho, -⟩ := hf.operand_eq
    exact ⟨o, rest, ho⟩
  · intro f rest hf
    exact ⟨hf.operand_eq, fun g rest' hg => hf.unique hg⟩

/-- `@-(X)(R1)` in front of a comma is an index, although it starts as `@-(R1)` does. -/
theorem operand_address_indexed :
    let x : Leaf false := .name "X" (by decide +kernel) (by decide +kernel)
    let e : ExprText false := ⟨.punct '-' :: parentheses [x.lexeme],
      .signed .minus (.leaf x), .product (.factor (.signed .minus (.grouped
        (.product (.factor (.leaf x))))))⟩
    let f : AddressForm false := ⟨true, .indexed e ⟨"R1", ⟨1⟩, by decide +kernel⟩⟩
    let rest : List Token := [⟨.punct ',', 10⟩, ⟨.ident "R0", 11⟩]
    let ts : List Token := [⟨.punct '@', 1⟩, ⟨.punct '-', 2⟩, ⟨.punct '(', 3⟩, ⟨.ident "X", 4⟩,
      ⟨.punct ')', 5⟩, ⟨.punct '(', 6⟩, ⟨.ident "R1", 7⟩, ⟨.punct ')', 9⟩] ++ rest
    f.Stands ts rest ∧ (∃ o, operand false .address ts = .ok (o, rest) ∧ f.Prescribes o) ∧
      ∀ (g : AddressForm false) (rest' : List Token), g.Stands ts rest' → g = f ∧ rest' = rest := by
  intro x e f rest ts
  have hf : f.Stands ts rest := by
    refine ⟨?_, _, rfl, rfl⟩
    intro t ht
    cases ht
    rfl
  exact ⟨hf, (operand_address_iff false ts).2 f rest hf⟩

end Eleven.Source

import Eleven.Proofs.Lazy.Folding
import Eleven.Source.Expr

/-! The grammar of expressions: trees, the lexemes by which they are written, and what they mean. -/
namespace Eleven.Source

open Eleven.Machine (Register)

/-- What stands for a value by itself where plain numbers have the radix in force. -/
inductive Leaf (decimal : Bool) where
  | number (digits : String) (n : Int64) (value : numeral? decimal digits = some n)
  | character (c : Char)
  | name (s : String) (notRegister : Register.ofName? s = none) (undotted : isDotted s = false)

inductive Sign where
  | plus
  | minus
deriving DecidableEq

inductive Scaling where
  | multiply
  | divide
deriving DecidableEq

/-- Expressions over the leaves. Parentheses are not part of a tree. -/
inductive ExprTree (decimal : Bool) where
  | leaf (l : Leaf decimal)
  | signed (s : Sign) (t : ExprTree decimal)
  | product (op : Scaling) (a b : ExprTree decimal)
  | sum (op : Sign) (a b : ExprTree decimal)

/-- How tight a part of an expression holds together, the loosest first. -/
inductive Precedence where
  | sum
  | product
  | factor
deriving DecidableEq

def Sign.lexeme : Sign → Lexeme
  | .plus => .punct '+'
  | .minus => .punct '-'

def Scaling.lexeme : Scaling → Lexeme
  | .multiply => .punct '*'
  | .divide => .punct '/'

/-- What a sign in front makes of an expression. -/
def Sign.turn : Sign → Expr → Expr
  | .plus, e => e
  | .minus, e => .neg e

/-- What a sign between two expressions makes of them. -/
def Sign.join : Sign → Expr → Expr → Expr
  | .plus => .add
  | .minus => .sub

def Scaling.join : Scaling → Expr → Expr → Expr
  | .multiply => .mul
  | .divide => .div

def parentheses (ls : List Lexeme) : List Lexeme := .punct '(' :: (ls ++ [.punct ')'])

namespace Leaf

variable {decimal : Bool}

def lexeme : Leaf decimal → Lexeme
  | .number digits _ _ => .number digits
  | .character c => .text (String.singleton c)
  | .name s _ _ => .ident s

def term : Leaf decimal → Term .int
  | .number _ n _ => .int n
  | .character c => .int (Int64.ofNat c.toNat)
  | .name s _ _ => .symbol (Text.upper s)

def expr : Leaf decimal → Expr
  | .number _ n _ => .number n
  | .character c => .number (Int64.ofNat c.toNat)
  | .name s _ _ => .name (Text.upper s)

theorem atom_lexeme (l : Leaf decimal) : atom decimal l.lexeme = .ok l.expr := by
  cases l with
  | number digits n value => simp only [lexeme, expr, atom, value]
  | character c =>
    have hc : (String.singleton c).toList = [c] := String.toList_singleton c
    simp only [lexeme, expr, atom, hc]
  | name s notRegister undotted => simp [lexeme, expr, atom, notRegister, undotted]

/-- The lexemes that are expressions of their own are those of the leaves. -/
theorem exists_of_atom {x : Lexeme} {e : Expr} (h : atom decimal x = .ok e) :
    ∃ l : Leaf decimal, l.lexeme = x ∧ l.expr = e := by
  cases x with
  | number digits =>
    rw [atom] at h
    split at h
    · rename_i n value
      exact ⟨.number digits n value, rfl, Except.ok.inj h⟩
    · cases h
  | ident s =>
    rw [atom] at h
    split_ifs at h with hreg hdot
    have notRegister : Register.ofName? s = none := by simpa using hreg
    have undotted : isDotted s = false := by simpa using hdot
    exact ⟨.name s notRegister undotted, rfl, Except.ok.inj h⟩
  | text s =>
    rw [atom] at h
    split at h
    · rename_i c hs
      have hc : String.singleton c = s := by
        rw [← String.toList_inj, hs, String.toList_singleton]
      exact ⟨.character c, congrArg Lexeme.text hc, Except.ok.inj h⟩
    · cases h
  | punct c => cases h

theorem lexeme_ne_punct (l : Leaf decimal) (c : Char) : l.lexeme ≠ .punct c := by
  cases l <;> simp [lexeme]

end Leaf

namespace ExprTree

variable {decimal : Bool}

/-- The lexemes of a tree at a place that asks for some precedence. A looser part stands in
parentheses, and any part may. Operators group to the left, so the part on their right is tighter. -/
inductive Written : ExprTree decimal → Precedence → List Lexeme → Prop
  | leaf (l : Leaf decimal) : Written (.leaf l) .factor [l.lexeme]
  | signed (s : Sign) {t : ExprTree decimal} {ls : List Lexeme} :
    Written t .factor ls → Written (.signed s t) .factor (s.lexeme :: ls)
  | grouped {t : ExprTree decimal} {ls : List Lexeme} :
    Written t .sum ls → Written t .factor (parentheses ls)
  | factor {t : ExprTree decimal} {ls : List Lexeme} :
    Written t .factor ls → Written t .product ls
  | scaled (op : Scaling) {a b : ExprTree decimal} {as bs : List Lexeme} :
    Written a .product as → Written b .factor bs →
      Written (.product op a b) .product (as ++ op.lexeme :: bs)
  | product {t : ExprTree decimal} {ls : List Lexeme} :
    Written t .product ls → Written t .sum ls
  | added (op : Sign) {a b : ExprTree decimal} {as bs : List Lexeme} :
    Written a .sum as → Written b .product bs →
      Written (.sum op a b) .sum (as ++ op.lexeme :: bs)

/-- The lexemes of a tree with parentheses only where a part is looser than its place. -/
def render : ExprTree decimal → Precedence → List Lexeme
  | .leaf l, _ => [l.lexeme]
  | .signed s t, _ => s.lexeme :: t.render .factor
  | .product op a b, p =>
    let ls := a.render .product ++ op.lexeme :: b.render .factor
    if p = .factor then parentheses ls else ls
  | .sum op a b, p =>
    let ls := a.render .sum ++ op.lexeme :: b.render .product
    if p = .sum then ls else parentheses ls

/-- The tree without what its lexemes look like. -/
def term : ExprTree decimal → Term .int
  | .leaf l => l.term
  | .signed .plus t => t.term
  | .signed .minus t => .neg t.term
  | .product .multiply a b => .mul a.term b.term
  | .product .divide a b => .div a.term b.term
  | .sum .plus a b => .add a.term b.term
  | .sum .minus a b => .sub a.term b.term

/-- What the tree comes to where `look` gives the symbols, which must be integers. -/
def meaning {σ : Type} (look : String → Attempt σ Datum) (t : ExprTree decimal) : Attempt σ Int64 :=
  t.term.meaning fun name => do
    let d ← look name
    d.expectInt

/-- What reading makes of the tree. -/
def expr : ExprTree decimal → Expr
  | .leaf l => l.expr
  | .signed s t => s.turn t.expr
  | .product op a b => op.join a.expr b.expr
  | .sum op a b => op.join a.expr b.expr

section Render

theorem Written.atPlace {t : ExprTree decimal} {ls : List Lexeme} (h : t.Written .factor ls)
    (p : Precedence) : t.Written p ls := by
  cases p with
  | sum => exact .product (.factor h)
  | product => exact .factor h
  | factor => exact h

theorem written_render (t : ExprTree decimal) (p : Precedence) : t.Written p (t.render p) := by
  induction t generalizing p with
  | leaf l => exact (Written.leaf l).atPlace p
  | signed s t ih => exact (Written.signed s (ih .factor)).atPlace p
  | product op a b iha ihb =>
    have h := Written.scaled op (iha .product) (ihb .factor)
    cases p with
    | sum => exact .product h
    | product => exact h
    | factor => exact .grouped (.product h)
  | sum op a b iha ihb =>
    have h := Written.added op (iha .sum) (ihb .product)
    cases p with
    | sum => exact h
    | product => exact .factor (.grouped h)
    | factor => exact .grouped h

theorem sublist_parentheses (ls : List Lexeme) : ls.Sublist (parentheses ls) :=
  (List.sublist_append_left ls _).cons _

/-- A place that asks for more may call for more parentheses, never for fewer. -/
theorem render_sublist_of_tighter (t : ExprTree decimal) :
    (t.render .sum).Sublist (t.render .product) ∧ (t.render .product).Sublist (t.render .factor) := by
  cases t with
  | leaf l => exact ⟨.refl _, .refl _⟩
  | signed s t => exact ⟨.refl _, .refl _⟩
  | product op a b => exact ⟨.refl _, sublist_parentheses _⟩
  | sum op a b => exact ⟨sublist_parentheses _, .refl _⟩

theorem render_factor_sublist (t : ExprTree decimal) :
    (t.render .factor).Sublist (parentheses (t.render .sum)) := by
  cases t with
  | leaf l => exact sublist_parentheses _
  | signed s t => exact sublist_parentheses _
  | product op a b => exact .refl _
  | sum op a b => exact .refl _

theorem parentheses_sublist {ls ls' : List Lexeme} (h : ls.Sublist ls') :
    (parentheses ls).Sublist (parentheses ls') := (h.append (.refl _)).cons_cons _

/-- No way to write a tree has fewer parentheses. -/
theorem Written.render_sublist {t : ExprTree decimal} {p : Precedence} {ls : List Lexeme}
    (h : t.Written p ls) : (t.render p).Sublist ls := by
  induction h with
  | leaf l => exact .refl _
  | signed s _ ih => exact ih.cons_cons _
  | @grouped t ls _ ih => exact t.render_factor_sublist.trans (parentheses_sublist ih)
  | @factor t ls _ ih => exact t.render_sublist_of_tighter.2.trans ih
  | scaled op _ _ iha ihb => exact iha.append (ihb.cons_cons _)
  | @product t ls _ ih => exact t.render_sublist_of_tighter.1.trans ih
  | added op _ _ iha ihb => exact iha.append (ihb.cons_cons _)

end Render

section Meaning

variable {σ : Type} (look : String → Attempt σ Datum)

/-- The value that reading builds comes to what the tree means, in every context. -/
theorem resolveInt_expr (t : ExprTree decimal) :
    t.expr.toLazy.resolveInt look = t.meaning look := by
  unfold meaning
  induction t with
  | leaf l => cases l <;> rfl
  | signed s t ih =>
    cases s with
    | plus => exact ih
    | minus =>
      rw [expr, Sign.turn, Expr.toLazy, Lazy.resolveInt_neg, ih]
      simp only [term, Term.meaning, Int64.ofInt_neg, Int64.ofInt_toInt]
  | product op a b iha ihb =>
    cases op with
    | multiply =>
      rw [expr, Scaling.join, Expr.toLazy, Lazy.resolveInt_mul, iha, ihb]
      simp only [term, Term.meaning, Int64.ofInt_mul, Int64.ofInt_toInt]
    | divide =>
      rw [expr, Scaling.join, Expr.toLazy, Lazy.resolveInt_div, iha, ihb]
      rfl
  | sum op a b iha ihb =>
    cases op with
    | plus =>
      rw [expr, Sign.join, Expr.toLazy, Lazy.resolveInt_add, iha, ihb]
      simp only [term, Term.meaning, Int64.ofInt_add, Int64.ofInt_toInt]
    | minus =>
      rw [expr, Sign.join, Expr.toLazy, Lazy.resolveInt_sub, iha, ihb]
      simp only [term, Term.meaning, Int64.ofInt_sub, Int64.ofInt_toInt]

end Meaning

end ExprTree

end Eleven.Source

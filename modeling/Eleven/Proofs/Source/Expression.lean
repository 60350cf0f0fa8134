import Eleven.Proofs.Failure.Outcome
import Eleven.Proofs.Source.Grammar
import Eleven.Source.Operand

/-! Reading expressions: the reader takes what the grammar writes, to its end, and nothing else. -/
namespace Eleven.Source

variable {decimal : Bool}

section Steps

variable {t : Token} {ts rest : List Token} {e : Expr} (room : Nat)

theorem factor_leaf {l : Leaf decimal} (ht : t.lexeme = l.lexeme) :
    factor decimal (room + 1) (t :: ts) = .ok (l.expr, ts) := by
  have hmark : ∀ c, t.lexeme ≠ .punct c := fun c => ht ▸ l.lexeme_ne_punct c
  refine (if_neg (hmark _)).trans ((if_neg (hmark _)).trans ((if_neg (hmark _)).trans ?_))
  rw [ht, l.atom_lexeme, ok_bind]

theorem factor_sign {s : Sign} (ht : t.lexeme = s.lexeme) :
    factor decimal (room + 1) (t :: ts) =
      (factor decimal room ts >>= fun r => .ok (s.turn r.1, r.2)) := by
  cases s with
  | plus =>
    change t.lexeme = .punct '+' at ht
    have hminus : ¬ t.lexeme = .punct '-' := by rw [ht]; decide
    refine (if_neg hminus).trans ((if_pos ht).trans ?_)
    cases factor decimal room ts <;> rfl
  | minus =>
    change t.lexeme = .punct '-' at ht
    exact if_pos ht

theorem factor_open (ht : t.lexeme = .punct '(') :
    factor decimal (room + 1) (t :: ts) =
      (sum decimal room ts >>= fun r => expectPunct ')' r.2 >>= fun after => .ok (r.1, after)) := by
  have hminus : ¬ t.lexeme = .punct '-' := by rw [ht]; decide
  have hplus : ¬ t.lexeme = .punct '+' := by rw [ht]; decide
  exact (if_neg hminus).trans ((if_neg hplus).trans (if_pos ht))

theorem productTail_scaling {op : Scaling} (ht : t.lexeme = op.lexeme) :
    productTail decimal (room + 1) e (t :: ts) =
      (factor decimal room ts >>= fun r => productTail decimal room (op.join e r.1) r.2) := by
  cases op with
  | multiply =>
    change t.lexeme = .punct '*' at ht
    exact if_pos ht
  | divide =>
    change t.lexeme = .punct '/' at ht
    have hmultiply : ¬ t.lexeme = .punct '*' := by rw [ht]; decide
    exact (if_neg hmultiply).trans (if_pos ht)

theorem sumTail_sign {op : Sign} (ht : t.lexeme = op.lexeme) :
    sumTail decimal (room + 1) e (t :: ts) =
      (product decimal room ts >>= fun r => sumTail decimal room (op.join e r.1) r.2) := by
  cases op with
  | plus =>
    change t.lexeme = .punct '+' at ht
    exact if_pos ht
  | minus =>
    change t.lexeme = .punct '-' at ht
    have hplus : ¬ t.lexeme = .punct '+' := by rw [ht]; decide
    exact (if_neg hplus).trans (if_pos ht)

section Ends

/-- What follows does not go on with the product. -/
def StopsProduct (ts : List Token) : Prop :=
  ∀ t ∈ ts.head?, t.lexeme ≠ .punct '*' ∧ t.lexeme ≠ .punct '/'

/-- What follows does not go on with the expression. -/
def StopsExpression (ts : List Token) : Prop :=
  ∀ t ∈ ts.head?, t.lexeme ≠ .punct '+' ∧ t.lexeme ≠ .punct '-' ∧ t.lexeme ≠ .punct '*' ∧
    t.lexeme ≠ .punct '/'

theorem StopsExpression.stopsProduct (h : StopsExpression rest) : StopsProduct rest :=
  fun u hu => (h u hu).2.2

theorem productTail_of_stops (e : Expr) (h : StopsProduct rest) :
    productTail decimal (room + 1) e rest = .ok (e, rest) := by
  cases rest with
  | nil => rfl
  | cons u us =>
    obtain ⟨hmul, hdiv⟩ := h u rfl
    exact (if_neg hmul).trans (if_neg hdiv)

theorem sumTail_of_stops (e : Expr) (h : StopsExpression rest) :
    sumTail decimal (room + 1) e rest = .ok (e, rest) := by
  cases rest with
  | nil => rfl
  | cons u us =>
    obtain ⟨hadd, hsub, -, -⟩ := h u rfl
    exact (if_neg hadd).trans (if_neg hsub)

end Ends

end Steps

namespace ExprTree

theorem Written.ne_nil {x : ExprTree decimal} {p : Precedence} {ls : List Lexeme}
    (h : x.Written p ls) : ls ≠ [] := by
  induction h with
  | factor _ ih => exact ih
  | product _ ih => exact ih
  | _ => simp [parentheses]

section Lexemes

variable {x : ExprTree decimal} {p : Precedence} {ls : List Lexeme}

/-- The marks that expressions are written with. -/
def marks : List Lexeme :=
  [.punct '+', .punct '-', .punct '*', .punct '/', .punct '(', .punct ')']

theorem Written.mem (h : x.Written p ls) {l : Lexeme} (hl : l ∈ ls) :
    (∃ leaf : Leaf decimal, l = leaf.lexeme) ∨ l ∈ marks := by
  induction h with
  | leaf leaf => exact .inl ⟨leaf, List.mem_singleton.mp hl⟩
  | signed s _ ih =>
    rcases List.mem_cons.mp hl with rfl | hl
    · cases s <;> exact .inr (by decide)
    · exact ih hl
  | grouped _ ih =>
    rcases List.mem_cons.mp hl with rfl | hl
    · exact .inr (by decide)
    · rcases List.mem_append.mp hl with hl | hl
      · exact ih hl
      · rw [List.mem_singleton.mp hl]
        exact .inr (by decide)
  | factor _ ih => exact ih hl
  | scaled op _ _ iha ihb =>
    rcases List.mem_append.mp hl with hl | hl
    · exact iha hl
    · rcases List.mem_cons.mp hl with rfl | hl
      · cases op <;> exact .inr (by decide)
      · exact ihb hl
  | product _ ih => exact ih hl
  | added op _ _ iha ihb =>
    rcases List.mem_append.mp hl with hl | hl
    · exact iha hl
    · rcases List.mem_cons.mp hl with rfl | hl
      · cases op <;> exact .inr (by decide)
      · exact ihb hl

/-- Other marks do not occur in expressions. -/
theorem Written.not_mem (h : x.Written p ls) {c : Char} (hc : Lexeme.punct c ∉ marks) :
    Lexeme.punct c ∉ ls := by
  intro hmem
  rcases h.mem hmem with ⟨leaf, hleaf⟩ | hmark
  · exact leaf.lexeme_ne_punct c hleaf.symm
  · exact hc hmark

/-- Registers do not occur in expressions. -/
theorem Written.registerOf?_eq (h : x.Written p ls) {l : Lexeme} (hl : l ∈ ls) :
    registerOf? l = none := by
  rcases h.mem hl with ⟨leaf, rfl⟩ | hmark
  · cases leaf with
    | name s notRegister undotted => exact notRegister
    | _ => rfl
  · have hmarks : ∀ m ∈ marks, registerOf? m = none := by decide
    exact hmarks l hmark

/-- An opening parenthesis is not all of an expression. -/
theorem Written.ne_open (h : x.Written p ls) : ls ≠ [.punct '('] := by
  induction h with
  | leaf leaf => simpa using leaf.lexeme_ne_punct '('
  | signed s h _ => simp [h.ne_nil]
  | grouped _ _ => simp [parentheses]
  | factor _ ih => exact ih
  | scaled op ha hb _ _ => simp [List.append_eq_cons_iff, ha.ne_nil]
  | product _ ih => exact ih
  | added op ha hb _ _ => simp [List.append_eq_cons_iff, ha.ne_nil]

/-- A sign in front belongs to the first factor, so without it an expression is left. -/
theorem Written.of_sign (h : x.Written p ls) (s : Sign) {ls' : List Lexeme}
    (hls : ls = s.lexeme :: ls') : ∃ y : ExprTree decimal, y.Written p ls' := by
  induction h generalizing ls' with
  | leaf leaf =>
    cases s <;> exact absurd (List.cons.inj hls).1 (leaf.lexeme_ne_punct _)
  | signed s' h _ =>
    obtain ⟨-, rfl⟩ := List.cons.inj hls
    exact ⟨_, h⟩
  | grouped _ _ =>
    have hopen : Lexeme.punct '(' = s.lexeme := (List.cons.inj hls).1
    cases s <;> cases hopen
  | factor _ ih =>
    obtain ⟨y, hy⟩ := ih hls
    exact ⟨y, .factor hy⟩
  | scaled op ha hb iha _ =>
    rcases List.append_eq_cons_iff.mp hls with ⟨hnil, -⟩ | ⟨as', has, hrest⟩
    · exact absurd hnil ha.ne_nil
    · obtain ⟨y, hy⟩ := iha has
      exact ⟨_, hrest ▸ hy.scaled op hb⟩
  | product _ ih =>
    obtain ⟨y, hy⟩ := ih hls
    exact ⟨y, .product hy⟩
  | added op ha hb iha _ =>
    rcases List.append_eq_cons_iff.mp hls with ⟨hnil, -⟩ | ⟨as', has, hrest⟩
    · exact absurd hnil ha.ne_nil
    · obtain ⟨y, hy⟩ := iha has
      exact ⟨_, hrest ▸ hy.added op hb⟩

end Lexemes

section Complete

/-- How an expression is read at a place. Each token takes up room three times at most. A product
or a sum may go on behind its tokens: the reader then stands in the loop that would take more. -/
def IsRead (decimal : Bool) (e : Expr) (ts : List Token) : Precedence → Prop
  | .factor => ∀ room rest, 3 * ts.length ≤ room →
      Source.factor decimal room (ts ++ rest) = .ok (e, rest)
  | .product => ∀ room, 3 * ts.length + 1 ≤ room → ∃ left, room ≤ left + ts.length ∧
      ∀ rest, Source.product decimal room (ts ++ rest) = productTail decimal left e rest
  | .sum => ∀ room, 3 * ts.length + 2 ≤ room → ∃ left, room ≤ left + ts.length ∧
      ∀ rest, StopsProduct rest →
        Source.sum decimal room (ts ++ rest) = sumTail decimal left e rest

variable {e f : Expr} {ts us : List Token} {t : Token}

theorem IsRead.product_of_factor (h : IsRead decimal e ts .factor) (hne : ts ≠ []) :
    IsRead decimal e ts .product := by
  intro room hroom
  obtain ⟨room, rfl⟩ : ∃ r, room = r + 1 := ⟨room - 1, by omega⟩
  have hlen := List.length_pos_iff.mpr hne
  refine ⟨room, by omega, fun rest => ?_⟩
  rw [Source.product, h room rest (by omega), ok_bind]

/-- A product that ends is read as a whole. -/
theorem IsRead.product_eq (h : IsRead decimal e ts .product) {room : Nat}
    (hroom : 3 * ts.length + 1 ≤ room) {rest : List Token} (hrest : StopsProduct rest) :
    Source.product decimal room (ts ++ rest) = .ok (e, rest) := by
  obtain ⟨left, hleft, hread⟩ := h room hroom
  obtain ⟨left, rfl⟩ : ∃ l, left = l + 1 := ⟨left - 1, by omega⟩
  rw [hread, productTail_of_stops left e hrest]

theorem IsRead.sum_of_product (h : IsRead decimal e ts .product) (hne : ts ≠ []) :
    IsRead decimal e ts .sum := by
  intro room hroom
  obtain ⟨room, rfl⟩ : ∃ r, room = r + 1 := ⟨room - 1, by omega⟩
  have hlen := List.length_pos_iff.mpr hne
  refine ⟨room, by omega, fun rest hrest => ?_⟩
  rw [Source.sum, h.product_eq (by omega) hrest, ok_bind]

/-- A sum that ends is read as a whole. -/
theorem IsRead.sum_eq (h : IsRead decimal e ts .sum) {room : Nat}
    (hroom : 3 * ts.length + 2 ≤ room) {rest : List Token} (hrest : StopsExpression rest) :
    Source.sum decimal room (ts ++ rest) = .ok (e, rest) := by
  obtain ⟨left, hleft, hread⟩ := h room hroom
  obtain ⟨left, rfl⟩ : ∃ l, left = l + 1 := ⟨left - 1, by omega⟩
  rw [hread rest hrest.stopsProduct, sumTail_of_stops left e hrest]

theorem isRead_leaf {l : Leaf decimal} (ht : t.lexeme = l.lexeme) :
    IsRead decimal l.expr [t] .factor := by
  intro room rest hroom
  obtain ⟨room, rfl⟩ : ∃ r, room = r + 1 := ⟨room - 1, by simp at hroom; omega⟩
  exact factor_leaf room ht

theorem IsRead.signed (h : IsRead decimal e ts .factor) {s : Sign} (ht : t.lexeme = s.lexeme) :
    IsRead decimal (s.turn e) (t :: ts) .factor := by
  intro room rest hroom
  obtain ⟨room, rfl⟩ : ∃ r, room = r + 1 := ⟨room - 1, by simp at hroom; omega⟩
  rw [List.cons_append, factor_sign room ht, h room rest (by simp at hroom; omega), ok_bind]

theorem IsRead.grouped (h : IsRead decimal e ts .sum) {a b : Token} (ha : a.lexeme = .punct '(')
    (hb : b.lexeme = .punct ')') : IsRead decimal e (a :: (ts ++ [b])) .factor := by
  intro room rest hroom
  have hlen : (a :: (ts ++ [b])).length = ts.length + 2 := by simp
  obtain ⟨room, rfl⟩ : ∃ r, room = r + 1 := ⟨room - 1, by omega⟩
  have hstops : StopsExpression (b :: rest) := by
    intro u hu
    cases hu
    rw [hb]
    decide
  rw [List.cons_append, List.append_assoc, List.singleton_append, factor_open room ha,
    h.sum_eq (by omega) hstops, ok_bind, expectPunct, if_pos hb, ok_bind]

theorem IsRead.scaled (he : IsRead decimal e ts .product) (hf : IsRead decimal f us .factor)
    {op : Scaling} (ht : t.lexeme = op.lexeme) :
    IsRead decimal (op.join e f) (ts ++ t :: us) .product := by
  intro room hroom
  have hlen : (ts ++ t :: us).length = ts.length + us.length + 1 := by simp; omega
  obtain ⟨left, hleft, hread⟩ := he room (by omega)
  obtain ⟨left, rfl⟩ : ∃ l, left = l + 1 := ⟨left - 1, by omega⟩
  refine ⟨left, by omega, fun rest => ?_⟩
  rw [List.append_assoc, List.cons_append, hread, productTail_scaling left ht,
    hf left rest (by omega), ok_bind]

theorem IsRead.added (he : IsRead decimal e ts .sum) (hf : IsRead decimal f us .product)
    {op : Sign} (ht : t.lexeme = op.lexeme) :
    IsRead decimal (op.join e f) (ts ++ t :: us) .sum := by
  intro room hroom
  have hlen : (ts ++ t :: us).length = ts.length + us.length + 1 := by simp; omega
  obtain ⟨left, hleft, hread⟩ := he room (by omega)
  obtain ⟨left, rfl⟩ : ∃ l, left = l + 1 := ⟨left - 1, by omega⟩
  refine ⟨left, by omega, fun rest hrest => ?_⟩
  have hstops : StopsProduct (t :: (us ++ rest)) := by
    intro u hu
    cases hu
    rw [ht]
    cases op <;> decide
  rw [List.append_assoc, List.cons_append, hread _ hstops, sumTail_sign left ht,
    hf.product_eq (by omega) hrest, ok_bind]

/-- Every way to write a tree is read as that tree. -/
theorem Written.isRead {x : ExprTree decimal} {p : Precedence} {ls : List Lexeme}
    (h : x.Written p ls) {ts : List Token} (hts : ts.map (·.lexeme) = ls) :
    IsRead decimal x.expr ts p := by
  induction h generalizing ts with
  | leaf l =>
    obtain ⟨t, rfl, ht⟩ := List.map_eq_singleton_iff.mp hts
    exact isRead_leaf ht
  | signed s _ ih =>
    obtain ⟨t, us, rfl, ht, hus⟩ := List.map_eq_cons_iff.mp hts
    exact (ih hus).signed ht
  | grouped _ ih =>
    obtain ⟨a, us, rfl, ha, hus⟩ := List.map_eq_cons_iff.mp hts
    obtain ⟨inner, last, rfl, hinner, hlast⟩ := List.map_eq_append_iff.mp hus
    obtain ⟨b, rfl, hb⟩ := List.map_eq_singleton_iff.mp hlast
    exact (ih hinner).grouped ha hb
  | factor h ih => exact (ih hts).product_of_factor fun hnil => h.ne_nil (by rw [← hts, hnil]; rfl)
  | scaled op _ _ iha ihb =>
    obtain ⟨as, rest, rfl, has, hrest⟩ := List.map_eq_append_iff.mp hts
    obtain ⟨t, bs, rfl, ht, hbs⟩ := List.map_eq_cons_iff.mp hrest
    exact (iha has).scaled (ihb hbs) ht
  | product h ih => exact (ih hts).sum_of_product fun hnil => h.ne_nil (by rw [← hts, hnil]; rfl)
  | added op _ _ iha ihb =>
    obtain ⟨as, rest, rfl, has, hrest⟩ := List.map_eq_append_iff.mp hts
    obtain ⟨t, bs, rfl, ht, hbs⟩ := List.map_eq_cons_iff.mp hrest
    exact (iha has).added (ihb hbs) ht

theorem Written.lazyExpression_eq {x : ExprTree decimal} {ts rest : List Token}
    (h : x.Written .sum (ts.map (·.lexeme))) (hrest : StopsExpression rest) :
    lazyExpression decimal (ts ++ rest) = .ok (x.expr.toLazy, rest) := by
  have hroom : 3 * ts.length + 2 ≤ 4 * (ts ++ rest).length + 4 := by
    rw [List.length_append]
    omega
  rw [lazyExpression, expression, (h.isRead rfl).sum_eq hroom hrest, ok_bind]

/-- The same lexemes are not read in two ways. -/
theorem Written.expr_unique {x y : ExprTree decimal} {ls : List Lexeme} (hx : x.Written .sum ls)
    (hy : y.Written .sum ls) : x.expr = y.expr := by
  have hls : (ls.map (⟨·, 0⟩ : Lexeme → Token)).map (·.lexeme) = ls := by
    rw [List.map_map]
    exact List.map_id ls
  have hstops : StopsExpression [] := by simp [StopsExpression]
  have hread := (hx.isRead hls).sum_eq (Nat.le_refl _) hstops
  rw [(hy.isRead hls).sum_eq (Nat.le_refl _) hstops] at hread
  exact (congrArg Prod.fst (Except.ok.inj hread)).symm

end Complete

section Sound

/-- The tokens before `rest` are those of a tree that is read as `e`. -/
def Reads (decimal : Bool) (p : Precedence) (e : Expr) (ts rest : List Token) : Prop :=
  ∃ (x : ExprTree decimal) (form : List Token),
    ts = form ++ rest ∧ x.Written p (form.map (·.lexeme)) ∧ x.expr = e

variable {e f : Expr} {ts us rest : List Token} {t : Token}

theorem Reads.product_of_factor (h : Reads decimal .factor e ts rest) :
    Reads decimal .product e ts rest := by
  obtain ⟨x, form, hts, hx, he⟩ := h
  exact ⟨x, form, hts, .factor hx, he⟩

theorem Reads.sum_of_product (h : Reads decimal .product e ts rest) :
    Reads decimal .sum e ts rest := by
  obtain ⟨x, form, hts, hx, he⟩ := h
  exact ⟨x, form, hts, .product hx, he⟩

theorem reads_leaf (h : atom decimal t.lexeme = .ok e) :
    Reads decimal .factor e (t :: rest) rest := by
  obtain ⟨l, hl, he⟩ := Leaf.exists_of_atom h
  have hw : (ExprTree.leaf l).Written .factor ([t].map (·.lexeme)) := by
    rw [List.map_singleton, ← hl]
    exact .leaf l
  exact ⟨.leaf l, [t], rfl, hw, he⟩

theorem Reads.signed (h : Reads decimal .factor e ts rest) (s : Sign) (ht : t.lexeme = s.lexeme) :
    Reads decimal .factor (s.turn e) (t :: ts) rest := by
  obtain ⟨x, form, rfl, hx, rfl⟩ := h
  have hw : (ExprTree.signed s x).Written .factor ((t :: form).map (·.lexeme)) := by
    rw [List.map_cons, ht]
    exact .signed s hx
  exact ⟨.signed s x, t :: form, rfl, hw, rfl⟩

theorem Reads.grouped {a b : Token} (h : Reads decimal .sum e ts (b :: rest))
    (ha : a.lexeme = .punct '(') (hb : b.lexeme = .punct ')') :
    Reads decimal .factor e (a :: ts) rest := by
  obtain ⟨x, form, rfl, hx, he⟩ := h
  have hw : x.Written .factor ((a :: (form ++ [b])).map (·.lexeme)) := by
    rw [List.map_cons, List.map_append, List.map_singleton, ha, hb]
    exact .grouped hx
  exact ⟨x, a :: (form ++ [b]), by simp, hw, he⟩

theorem Reads.scaled (h : Reads decimal .product e ts (t :: us))
    (h' : Reads decimal .factor f us rest) (op : Scaling) (ht : t.lexeme = op.lexeme) :
    Reads decimal .product (op.join e f) ts rest := by
  obtain ⟨x, form, rfl, hx, rfl⟩ := h
  obtain ⟨y, form', rfl, hy, rfl⟩ := h'
  have hw : (ExprTree.product op x y).Written .product ((form ++ t :: form').map (·.lexeme)) := by
    rw [List.map_append, List.map_cons, ht]
    exact .scaled op hx hy
  exact ⟨_, form ++ t :: form', by simp, hw, rfl⟩

theorem Reads.added (h : Reads decimal .sum e ts (t :: us))
    (h' : Reads decimal .product f us rest) (op : Sign) (ht : t.lexeme = op.lexeme) :
    Reads decimal .sum (op.join e f) ts rest := by
  obtain ⟨x, form, rfl, hx, rfl⟩ := h
  obtain ⟨y, form', rfl, hy, rfl⟩ := h'
  have hw : (ExprTree.sum op x y).Written .sum ((form ++ t :: form').map (·.lexeme)) := by
    rw [List.map_append, List.map_cons, ht]
    exact .added op hx hy
  exact ⟨_, form ++ t :: form', by simp, hw, rfl⟩

theorem expectPunct_eq_ok {c : Char} (h : expectPunct c ts = .ok rest) :
    ∃ b, ts = b :: rest ∧ b.lexeme = .punct c := by
  cases ts with
  | nil => cases h
  | cons b us =>
    rw [expectPunct] at h
    split_ifs at h with hb
    cases h
    exact ⟨b, rfl, hb⟩

mutual

theorem reads_of_sum {room : Nat} {ts rest : List Token} {e : Expr}
    (h : Source.sum decimal room ts = .ok (e, rest)) : Reads decimal .sum e ts rest := by
  cases room with
  | zero => cases h
  | succ room =>
    obtain ⟨⟨f, us⟩, hf, htail⟩ := bind_eq_ok.mp h
    exact reads_of_sumTail (reads_of_product hf).sum_of_product htail

theorem reads_of_sumTail {room : Nat} {ts us rest : List Token} {e f : Expr}
    (hf : Reads decimal .sum f ts us) (h : sumTail decimal room f us = .ok (e, rest)) :
    Reads decimal .sum e ts rest := by
  cases room with
  | zero => cases h
  | succ room =>
    cases us with
    | nil =>
      cases h
      exact hf
    | cons t us =>
      by_cases hsign : ∃ op : Sign, t.lexeme = op.lexeme
      · obtain ⟨op, ht⟩ := hsign
        rw [sumTail_sign room ht] at h
        obtain ⟨⟨g, vs⟩, hg, htail⟩ := bind_eq_ok.mp h
        exact reads_of_sumTail (hf.added (reads_of_product hg) op ht) htail
      · have hplus : ¬ t.lexeme = .punct '+' := fun ht => hsign ⟨.plus, ht⟩
        have hminus : ¬ t.lexeme = .punct '-' := fun ht => hsign ⟨.minus, ht⟩
        rw [sumTail, if_neg hplus, if_neg hminus] at h
        cases h
        exact hf

theorem reads_of_product {room : Nat} {ts rest : List Token} {e : Expr}
    (h : Source.product decimal room ts = .ok (e, rest)) : Reads decimal .product e ts rest := by
  cases room with
  | zero => cases h
  | succ room =>
    obtain ⟨⟨f, us⟩, hf, htail⟩ := bind_eq_ok.mp h
    exact reads_of_productTail (reads_of_factor hf).product_of_factor htail

theorem reads_of_productTail {room : Nat} {ts us rest : List Token} {e f : Expr}
    (hf : Reads decimal .product f ts us) (h : productTail decimal room f us = .ok (e, rest)) :
    Reads decimal .product e ts rest := by
  cases room with
  | zero => cases h
  | succ room =>
    cases us with
    | nil =>
      cases h
      exact hf
    | cons t us =>
      by_cases hscaling : ∃ op : Scaling, t.lexeme = op.lexeme
      · obtain ⟨op, ht⟩ := hscaling
        rw [productTail_scaling room ht] at h
        obtain ⟨⟨g, vs⟩, hg, htail⟩ := bind_eq_ok.mp h
        exact reads_of_productTail (hf.scaled (reads_of_factor hg) op ht) htail
      · have hmultiply : ¬ t.lexeme = .punct '*' := fun ht => hscaling ⟨.multiply, ht⟩
        have hdivide : ¬ t.lexeme = .punct '/' := fun ht => hscaling ⟨.divide, ht⟩
        rw [productTail, if_neg hmultiply, if_neg hdivide] at h
        cases h
        exact hf

theorem reads_of_factor {room : Nat} {ts rest : List Token} {e : Expr}
    (h : Source.factor decimal room ts = .ok (e, rest)) : Reads decimal .factor e ts rest := by
  cases room with
  | zero => cases h
  | succ room =>
    cases ts with
    | nil => cases h
    | cons t ts =>
      by_cases hsign : ∃ s : Sign, t.lexeme = s.lexeme
      · obtain ⟨s, ht⟩ := hsign
        rw [factor_sign room ht] at h
        obtain ⟨⟨f, us⟩, hf, heq⟩ := bind_eq_ok.mp h
        cases heq
        exact (reads_of_factor hf).signed s ht
      · by_cases hopen : t.lexeme = .punct '('
        · rw [factor_open room hopen] at h
          obtain ⟨⟨f, us⟩, hf, hclose⟩ := bind_eq_ok.mp h
          obtain ⟨after, hafter, heq⟩ := bind_eq_ok.mp hclose
          cases heq
          obtain ⟨b, rfl, hb⟩ := expectPunct_eq_ok hafter
          exact (reads_of_sum hf).grouped hopen hb
        · have hminus : ¬ t.lexeme = .punct '-' := fun ht => hsign ⟨.minus, ht⟩
          have hplus : ¬ t.lexeme = .punct '+' := fun ht => hsign ⟨.plus, ht⟩
          rw [Source.factor, if_neg hminus, if_neg hplus, if_neg hopen] at h
          obtain ⟨f, hf, heq⟩ := bind_eq_ok.mp h
          cases heq
          exact reads_leaf hf

end

theorem exists_of_lazyExpression {v : Lazy} (h : lazyExpression decimal ts = .ok (v, rest)) :
    ∃ (x : ExprTree decimal) (form : List Token), ts = form ++ rest ∧
      x.Written .sum (form.map (·.lexeme)) ∧ x.expr.toLazy = v := by
  obtain ⟨⟨e, us⟩, he, heq⟩ := bind_eq_ok.mp h
  cases heq
  obtain ⟨x, form, hts, hx, rfl⟩ := reads_of_sum he
  exact ⟨x, form, hts, hx, rfl⟩

end Sound

/-- However a tree is written, the reader takes exactly its lexemes, as long as what follows cannot go
on with an expression, and the value it builds comes to what the tree means in every context. Every
tree can be written, with parentheses only where they are needed, and no way to write it has fewer. -/
theorem lazyExpression_written (x : ExprTree decimal) :
    (x.Written .sum (x.render .sum) ∧ ∀ ls, x.Written .sum ls → (x.render .sum).Sublist ls) ∧
      ∀ ts rest : List Token, x.Written .sum (ts.map (·.lexeme)) → StopsExpression rest →
        ∃ v, lazyExpression decimal (ts ++ rest) = .ok (v, rest) ∧
          ∀ (σ : Type) (look : String → Attempt σ Datum), v.resolveInt look = x.meaning look := by
  refine ⟨⟨x.written_render .sum, fun ls h => h.render_sublist⟩, fun ts rest h hrest => ?_⟩
  exact ⟨x.expr.toLazy, h.lazyExpression_eq hrest, fun σ look => x.resolveInt_expr look⟩

/-- `2-(A-3)*-B` in front of a comma. -/
theorem lazyExpression_written_product :
    let a : Leaf false := .name "A" (by decide +kernel) (by decide +kernel)
    let b : Leaf false := .name "B" (by decide +kernel) (by decide +kernel)
    let two : Leaf false := .number "2" 2 (by decide +kernel)
    let three : Leaf false := .number "3" 3 (by decide +kernel)
    let x : ExprTree false := .sum .minus (.leaf two)
      (.product .multiply (.sum .minus (.leaf a) (.leaf three)) (.signed .minus (.leaf b)))
    let ts : List Token := [⟨.number "2", 1⟩, ⟨.punct '-', 2⟩, ⟨.punct '(', 3⟩, ⟨.ident "A", 4⟩,
      ⟨.punct '-', 5⟩, ⟨.number "3", 6⟩, ⟨.punct ')', 7⟩, ⟨.punct '*', 8⟩, ⟨.punct '-', 9⟩,
      ⟨.ident "B", 10⟩]
    x.Written .sum (ts.map (·.lexeme)) ∧ StopsExpression [⟨.punct ',', 11⟩] ∧
      ∃ v, lazyExpression false (ts ++ [⟨.punct ',', 11⟩]) = .ok (v, [⟨.punct ',', 11⟩]) ∧
        ∀ (σ : Type) (look : String → Attempt σ Datum), v.resolveInt look = x.meaning look := by
  intro a b two three x ts
  have hx : x.Written .sum (ts.map (·.lexeme)) := (lazyExpression_written x).1.1
  have hrest : StopsExpression [⟨.punct ',', 11⟩] := by simp [StopsExpression]
  exact ⟨hx, hrest, (lazyExpression_written x).2 ts _ hx hrest⟩

end ExprTree

end Eleven.Source

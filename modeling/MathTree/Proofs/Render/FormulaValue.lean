import MathTree.Proofs.Render.Arithmetic
import MathTree.Proofs.Render.Operands

/-!
# Formulas that tell values

The text of a sum, a difference, a product or a quotient is made of the texts of its operands
(`formula_sum`, …), so by the rules for reading infix text it is worth what the tree is
(`exists_reads`), and trees with the same text are worth the same.  The one exception is a quotient
with a quotient for its denominator, which is written without the brackets that it needs: `a/(b/c)` is
written as `(a/b)/c` is.
-/

namespace MathTree

open Infix MathTree.Number

variable {K : Type} [DivisionRing K] {ρ : String → K} {style : Formula.Style} {t x y : Tree}
  {text a b : String} {texts : Tree → String}

theorem mapM_eq_ok {α β ε : Type} {f : α → Except ε β} {g : α → β} {xs : List α}
    (h : ∀ x ∈ xs, f x = .ok (g x)) : xs.mapM f = .ok (xs.map g) := by
  induction xs with
  | nil => rfl
  | cons x xs ih =>
    rw [List.mapM_cons, h x List.mem_cons_self, ih fun y hy => h y (List.mem_cons_of_mem _ hy)]
    rfl

namespace Tree

/-! ### Texts of operands -/

/-- A tree as an operand of a formula. -/
def term (style : Formula.Style) (t : Tree) : Term := t.operand (Formula.renderer style)

def operandText (t : Tree) (text : String) : String :=
  Term.enclosedIf Formula.brackets t.isLoose text

def denominatorText (t : Tree) (text : String) : String :=
  Term.enclosedIf Formula.brackets (t.kind ∈ [.plus, .minus, .times]) text

theorem operand_term (h : t.formula style = .ok text) :
    Formula.operand (t.term style) = .ok (t.operandText text) :=
  congrArg (Functor.map _) h

theorem denominator_term (h : t.formula style = .ok text) :
    Formula.denominator (t.term style) = .ok (t.denominatorText text) := by
  have hresult : (t.term style).result = .ok text := h
  have htree : (t.term style).tree = t := rfl
  rw [Formula.denominator, hresult, htree, denominatorText]
  cases t.kind <;> rfl

theorem mapM_operand_term {us : List Tree} (h : ∀ u ∈ us, u.formula style = .ok (texts u)) :
    (us.map (term style)).mapM Formula.operand = .ok (us.map fun u => u.operandText (texts u)) := by
  rw [List.mapM_map]
  exact mapM_eq_ok fun u hu => operand_term (h u hu)

/-! ### Texts of nodes -/

theorem formula_eq {reading : Reading Tree} (h : t.reading? = .ok reading) :
    t.formula style = Formula.form style (reading.map (term style)) := by
  rw [formula, render_eq, h]
  rfl

theorem formula_identifier {name : String} (h : t.kind = .name) (hname : t.head.name = .ok name) :
    t.formula style = .ok name := by
  have hread : t.reading? = .ok (.identifier name) := by
    rw [reading?, Head.reading?, ← kind, h, hname]
    rfl
  rw [formula_eq hread]
  rfl

theorem formula_integer {n : Int32} (h : t.kind = .integer) (hn : t.head.integer = .ok n) :
    t.formula style = .ok (intText n.toInt) := by
  have hread : t.reading? = .ok (.integer n t.head.units?) := by
    rw [reading?, Head.reading?, ← kind, h, hn]
    rfl
  rw [formula_eq hread]
  rfl

theorem formula_sum {us : List Tree} (h : t.kind = .plus) (hus : t.shown = x :: us)
    (hx : x.formula style = .ok a) (hts : ∀ u ∈ us, u.formula style = .ok (texts u)) :
    t.formula style = .ok (a ++ String.join (us.map fun u => "+" ++ u.operandText (texts u))) := by
  have hread : t.reading? = .ok (.sum (x :: us)) := by
    rw [reading?, Head.reading?, ← kind, h, itself_shown, hus]
  have hfirst : (x.term style).result = .ok a := hx
  have hothers : (us.map (term style)).mapM (Term.operand Formula.brackets)
      = .ok (us.map fun u => u.operandText (texts u)) := mapM_operand_term hts
  rw [formula_eq hread]
  change Term.chain Formula.brackets "+" (x.term style :: us.map (term style)) = _
  rw [Term.chain, hfirst, hothers]
  simp [bind, Except.bind, pure, Except.pure, Function.comp_def]

theorem formula_difference (h : t.kind = .minus) (hform : t.head.form = .binary)
    (hxy : t.shown = [x, y]) (hx : x.formula style = .ok a) (hy : y.formula style = .ok b) :
    t.formula style = .ok (a ++ "-" ++ y.operandText b) := by
  have hread : t.reading? = .ok (.difference x y) := by
    rw [reading?, Head.reading?, ← kind, h, itself_shown, hform, hxy]
    rfl
  have hfirst : (x.term style).result = .ok a := hx
  have hsecond : Term.operand Formula.brackets (y.term style) = .ok (y.operandText b) :=
    operand_term hy
  rw [formula_eq hread]
  change Term.chain Formula.brackets "-" [x.term style, y.term style] = _
  rw [Term.chain, hfirst, List.mapM_cons, hsecond]
  simp [bind, Except.bind, pure, Except.pure, String.append_assoc]

theorem formula_negation (h : t.kind = .minus) (hform : t.head.form = .unary)
    (hx : t.shown = [x]) (ha : x.formula style = .ok a) :
    t.formula style = .ok ("-" ++ x.operandText a) := by
  have hread : t.reading? = .ok (.negation x) := by
    rw [reading?, Head.reading?, ← kind, h, itself_shown, hform, hx]
    rfl
  rw [formula_eq hread]
  change ("-" ++ ·) <$> Formula.operand (x.term style) = _
  rw [operand_term ha]
  rfl

theorem formula_product (h : t.kind = .times)
    (hts : ∀ u ∈ t.shown, u.formula style = .ok (texts u)) :
    t.formula style
      = .ok ("*".intercalate ((t.shown.map fun u => u.operandText (texts u)).filter (· ≠ ""))) := by
  have hread : t.reading? = .ok (.product t.shown) := by
    rw [reading?, Head.reading?, ← kind, h, itself_shown]
  rw [formula_eq hread]
  change Formula.product (t.shown.map (term style)) = _
  rw [Formula.product, mapM_operand_term hts]
  rfl

theorem formula_quotient (h : t.kind = .divide) (hxy : t.shown = [x, y])
    (hx : x.formula style = .ok a) (hy : y.formula style = .ok b) :
    t.formula style = .ok (x.operandText a ++ "/" ++ y.denominatorText b) := by
  have hread : t.reading? = .ok (.quotient x y) := by
    rw [reading?, Head.reading?, ← kind, h, itself_shown, hxy]
    rfl
  rw [formula_eq hread]
  change (do
    let above ← Formula.operand (x.term style)
    let below ← Formula.denominator (y.term style)
    return above ++ "/" ++ below) = _
  rw [operand_term hx, denominator_term hy]
  rfl

/-! ### Reading formulas -/

/-- What is known of the text of a tree of arithmetic: it is worth what the tree is, and it stands for
a product or an operand without brackets if the kind of the tree allows it. -/
structure Reads (style : Formula.Style) (ρ : String → K) (t : Tree) (text : String) : Prop where
  formula : t.formula style = .ok text
  sum : IsSum ρ text (t.value ρ)
  product : ¬ t.isLoose → IsProduct ρ text (t.value ρ)
  factor : t.kind ∉ [.plus, .minus, .times, .divide] → IsFactor ρ text (t.value ρ)

namespace Reads

theorem of_factor (hformula : t.formula style = .ok text) (h : IsFactor ρ text (t.value ρ)) :
    Reads style ρ t text :=
  ⟨hformula, h.product.sum, fun _ => h.product, fun _ => h⟩

theorem of_product (hformula : t.formula style = .ok text) (h : IsProduct ρ text (t.value ρ))
    (hkind : t.kind ∈ [.times, .divide]) : Reads style ρ t text := by
  refine ⟨hformula, h.sum, fun _ => h, fun hnot => absurd ?_ hnot⟩
  exact List.mem_append_right [.plus, .minus] hkind

theorem of_sum (hformula : t.formula style = .ok text) (h : IsSum ρ text (t.value ρ))
    (hkind : t.kind ∈ [.plus, .minus]) : Reads style ρ t text := by
  refine ⟨hformula, h, fun hloose => absurd ?_ hloose, fun hnot => absurd ?_ hnot⟩
  · rcases List.mem_pair.1 hkind with hk | hk <;> simp [isLoose, hk]
  · exact List.mem_append_left [.times, .divide] hkind

theorem operandText (h : Reads style ρ t text) :
    IsProduct ρ (t.operandText text) (t.value ρ) := by
  rw [Tree.operandText, Term.enclosedIf]
  split_ifs with hloose
  · exact h.sum.brackets.product
  · exact h.product hloose

/-- Any denominator stands for an operand, save one that is a quotient. -/
theorem denominatorText (h : Reads style ρ t text) (hkind : t.kind ≠ .divide) :
    IsFactor ρ (t.denominatorText text) (t.value ρ) := by
  rw [Tree.denominatorText, Term.enclosedIf]
  split_ifs with hc
  · exact h.sum.brackets
  · refine h.factor fun hk => ?_
    have hsplit : t.kind ∈ [.plus, .minus, .times] ++ [Kind.divide] := hk
    rcases List.mem_append.1 hsplit with hk | hk
    · exact hc (decide_eq_true hk)
    · exact hkind (List.mem_singleton.1 hk)

end Reads

theorem reads_identifier (h : t.IsIdentifier) : ∃ text, Reads style ρ t text := by
  obtain ⟨hk, name, hname, hword⟩ := h
  refine ⟨name, .of_factor (formula_identifier hk hname) ?_⟩
  rw [value_identifier hk hname]
  exact hword.isFactor

theorem reads_natural (h : t.IsNatural) : ∃ text, Reads style ρ t text := by
  obtain ⟨hk, n, hn, hpos⟩ := h
  refine ⟨_, .of_factor (formula_integer hk hn) ?_⟩
  have htext : intText n.toInt = toString n.toInt.natAbs := if_neg (Int.not_lt.2 hpos)
  have hvalue : ((n.toInt.natAbs : ℕ) : K) = (n.toInt : K) := by
    rw [← Int.cast_natCast, Int.natAbs_of_nonneg hpos]
  rw [value_integer hk hn, htext, ← hvalue]
  exact isFactor_toString _

theorem reads_sum (h : t.kind = .plus) (hne : t.shown ≠ [])
    (hts : ∀ u ∈ t.shown, Reads style ρ u (texts u)) : ∃ text, Reads style ρ t text := by
  obtain ⟨x, us, hus⟩ := List.exists_cons_of_ne_nil hne
  rw [hus] at hts
  have hx := hts x List.mem_cons_self
  have hrest (u : Tree) (hu : u ∈ us) := hts u (List.mem_cons_of_mem _ hu)
  refine ⟨_, .of_sum (formula_sum h hus hx.formula fun u hu => (hrest u hu).formula) ?_ (by simp [h])⟩
  rw [value_sum h, hus, List.map_cons, List.sum_cons]
  exact isSum_join hx.sum fun u hu => (hrest u hu).operandText

theorem reads_difference (h : t.kind = .minus) (hform : t.head.form = .binary)
    (hxy : t.shown = [x, y]) (hx : Reads style ρ x a) (hy : Reads style ρ y b) :
    ∃ text, Reads style ρ t text := by
  refine ⟨_, .of_sum (formula_difference h hform hxy hx.formula hy.formula) ?_ (by simp [h])⟩
  rw [value_difference h hxy]
  exact hx.sum.sub hy.operandText

theorem reads_negation (h : t.kind = .minus) (hform : t.head.form = .unary)
    (hx : t.shown = [x]) (ha : Reads style ρ x a) : ∃ text, Reads style ρ t text := by
  refine ⟨_, .of_sum (formula_negation h hform hx ha.formula) ?_ (by simp [h])⟩
  rw [value_negation h hx]
  exact ha.operandText.neg

theorem reads_product (h : t.kind = .times) (hne : t.shown ≠ [])
    (hts : ∀ u ∈ t.shown, Reads style ρ u (texts u)) : ∃ text, Reads style ρ t text := by
  have hproduct (u : Tree) (hu : u ∈ t.shown) := (hts u hu).operandText
  -- no factor is written as nothing
  have hfilter : (t.shown.map fun u => u.operandText (texts u)).filter (· ≠ "")
      = t.shown.map fun u => u.operandText (texts u) := by
    refine List.filter_eq_self.2 fun text htext => ?_
    obtain ⟨u, hu, rfl⟩ := List.mem_map.1 htext
    exact decide_eq_true (hproduct u hu).ne_empty
  refine ⟨_, .of_product (formula_product h fun u hu => (hts u hu).formula) ?_ (by simp [h])⟩
  obtain ⟨x, us, hus⟩ := List.exists_cons_of_ne_nil hne
  rw [hfilter, value_product h, hus]
  exact isProduct_intercalate (hus ▸ hproduct)

theorem reads_quotient (h : t.kind = .divide) (hxy : t.shown = [x, y]) (hkind : y.kind ≠ .divide)
    (hx : Reads style ρ x a) (hy : Reads style ρ y b) : ∃ text, Reads style ρ t text := by
  refine ⟨_, .of_product (formula_quotient h hxy hx.formula hy.formula) ?_ (by simp [h])⟩
  rw [value_quotient h hxy]
  exact hx.operandText.div (hy.denominatorText hkind)

/-- The text of a tree of arithmetic is worth what the tree is, if no quotient in it has a quotient for
its denominator. -/
theorem All.exists_reads (style : Formula.Style) (ρ : String → K) (h : t.All IsArithmeticNode)
    (hstack : t.Unstacked) : ∃ text, Reads style ρ t text := by
  have hplain := h.and hstack
  clear h hstack
  induction hplain with
  | @intro t top _ ih =>
    choose! texts hts using ih
    obtain ⟨hnode | hnode, hdivides⟩ := top
    · cases hnode with
      | identifier h => exact reads_identifier h
      | natural h => exact reads_natural h
      | sum h hne => exact reads_sum h hne hts
      | product h hne => exact reads_product h hne hts
      | difference h hform hxy =>
        exact reads_difference h hform hxy (hts _ (by simp [hxy])) (hts _ (by simp [hxy]))
      | negation h hform hx => exact reads_negation h hform hx (hts _ (by simp [hx]))
    · cases hnode with
      | identifier h => exact reads_identifier h
      | product h hlen => exact reads_product h (by rintro he; simp [he] at hlen) hts
      | quotient h hxy =>
        have hy : _ ≠ Kind.divide := fun hk => hdivides ⟨h, _, _, hxy, hk⟩
        exact reads_quotient h hxy hy (hts _ (by simp [hxy])) (hts _ (by simp [hxy]))

/-- Two trees of arithmetic with the same text are worth the same. -/
theorem value_eq_of_formula_eq {t' : Tree}
    (h : t.All IsArithmeticNode) (hstack : t.Unstacked) (h' : t'.All IsArithmeticNode)
    (hstack' : t'.Unstacked) (heq : t.formula style = t'.formula style) :
    t.value ρ = t'.value ρ := by
  obtain ⟨text, ht⟩ := h.exists_reads style ρ hstack
  obtain ⟨text', ht'⟩ := h'.exists_reads style ρ hstack'
  have htext : text = text' := Except.ok.inj (ht.formula.symm.trans (heq.trans ht'.formula))
  rw [← ht.sum.read_eq, ← ht'.sum.read_eq, htext]

end Tree

end MathTree

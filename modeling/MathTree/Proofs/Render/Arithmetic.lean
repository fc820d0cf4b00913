import Mathlib.Algebra.BigOperators.Ring.List
import Mathlib.Data.Int.Cast.Lemmas
import MathTree.Proofs.Render.Infix

/-!
# Arithmetic

What trees are worth that are built from names, whole numbers and the four operations
(`Tree.value`), and which trees these are (`Tree.IsPolynomialNode`, `Tree.IsFractionNode`).
-/

namespace MathTree

open Infix

variable {K : Type} {t : Tree} {P Q : Tree → Prop}

/-! ### Values -/

/-- What a node of arithmetic is worth, from what names stand for and what its operands are worth. -/
def Head.value [Ring K] [Div K] (ρ : String → K) (h : Head) (operands : List K) : K :=
  match h.kind, operands with
  | .plus, xs => xs.sum
  | .times, xs => xs.prod
  | .minus, [x] => -x
  | .minus, [x, y] => x - y
  | .divide, [x, y] => x / y
  | .integer, _ => (h.integer.toOption.getD 0).toInt
  | .name, _ => ρ (h.name.toOption.getD "")
  | _, _ => 0

namespace Tree

/-- What a tree is worth, where names stand for numbers. -/
def value [Ring K] [Div K] (ρ : String → K) : Tree → K := foldShown (Head.value ρ)

theorem value_eq [Ring K] [Div K] (ρ : String → K) (t : Tree) :
    t.value ρ = t.head.value ρ (t.shown.map (value ρ)) := by
  cases t
  exact foldShown_node _ _ _

section Nodes

variable [Ring K] [Div K] {ρ : String → K} {x y : Tree}

theorem value_sum (h : t.kind = .plus) : t.value ρ = (t.shown.map (value ρ)).sum := by
  rw [kind] at h
  rw [value_eq, Head.value.eq_def, h]

theorem value_product (h : t.kind = .times) : t.value ρ = (t.shown.map (value ρ)).prod := by
  rw [kind] at h
  rw [value_eq, Head.value.eq_def, h]

theorem value_difference (h : t.kind = .minus) (hxy : t.shown = [x, y]) :
    t.value ρ = x.value ρ - y.value ρ := by
  rw [kind] at h
  rw [value_eq ρ t, Head.value.eq_def, h, hxy, List.map_cons, List.map_cons, List.map_nil]

theorem value_negation (h : t.kind = .minus) (hx : t.shown = [x]) : t.value ρ = -x.value ρ := by
  rw [kind] at h
  rw [value_eq ρ t, Head.value.eq_def, h, hx, List.map_cons, List.map_nil]

theorem value_quotient (h : t.kind = .divide) (hxy : t.shown = [x, y]) :
    t.value ρ = x.value ρ / y.value ρ := by
  rw [kind] at h
  rw [value_eq ρ t, Head.value.eq_def, h, hxy, List.map_cons, List.map_cons, List.map_nil]

theorem value_identifier {name : String} (h : t.kind = .name) (hname : t.head.name = .ok name) :
    t.value ρ = ρ name := by
  rw [kind] at h
  rw [value_eq, Head.value.eq_def, h]
  simp only [hname]
  rfl

theorem value_integer {n : Int32} (h : t.kind = .integer) (hn : t.head.integer = .ok n) :
    t.value ρ = n.toInt := by
  rw [kind] at h
  rw [value_eq, Head.value.eq_def, h]
  simp only [hn]
  rfl

end Nodes

/-! ### Trees of arithmetic -/

/-- Whether a condition is met by all nodes that are shown, each seen as the tree below it. -/
inductive All (P : Tree → Prop) : Tree → Prop
  | intro {t : Tree} (top : P t) (below : ∀ u ∈ t.shown, All P u) : All P t

theorem All.node {h : Head} {us : List Tree} (top : P (.node h us)) (below : ∀ u ∈ us, u.All P) :
    All P (.node h us) :=
  ⟨top, fun u hu => below u (List.mem_of_mem_take hu)⟩

theorem All.imp (h : t.All P) (hPQ : ∀ u, P u → Q u) : t.All Q := by
  induction h with
  | intro top _ ih => exact ⟨hPQ _ top, ih⟩

theorem All.and (h : t.All P) (h' : t.All Q) : t.All fun u => P u ∧ Q u := by
  induction h with
  | intro top _ ih =>
    cases h' with
    | intro top' below => exact ⟨⟨top, top'⟩, fun u hu => ih u hu (below u hu)⟩

def IsIdentifier (t : Tree) : Prop := t.kind = .name ∧ ∃ name, t.head.name = .ok name ∧ IsName name

/-- Whether a tree is a whole number that has no sign. -/
def IsNatural (t : Tree) : Prop := t.kind = .integer ∧ ∃ n, t.head.integer = .ok n ∧ 0 ≤ n.toInt

/-- The nodes of sums, differences and products, strict or lenient: what counts is what they show. -/
inductive IsPolynomialNode : Tree → Prop
  | identifier {t : Tree} (h : t.IsIdentifier) : IsPolynomialNode t
  | natural {t : Tree} (h : t.IsNatural) : IsPolynomialNode t
  | sum {t : Tree} (h : t.kind = .plus) (hne : t.shown ≠ []) : IsPolynomialNode t
  | product {t : Tree} (h : t.kind = .times) (hne : t.shown ≠ []) : IsPolynomialNode t
  | difference {t x y : Tree} (h : t.kind = .minus) (hform : t.head.form = .binary)
    (hxy : t.shown = [x, y]) : IsPolynomialNode t
  | negation {t x : Tree} (h : t.kind = .minus) (hform : t.head.form = .unary)
    (hx : t.shown = [x]) : IsPolynomialNode t

/-- The nodes of products and quotients, strict or lenient: what counts is what they show. -/
inductive IsFractionNode : Tree → Prop
  | identifier {t : Tree} (h : t.IsIdentifier) : IsFractionNode t
  | product {t : Tree} (h : t.kind = .times) (hlen : 2 ≤ t.shown.length) : IsFractionNode t
  | quotient {t x y : Tree} (h : t.kind = .divide) (hxy : t.shown = [x, y]) : IsFractionNode t

/-- The nodes of arithmetic. -/
def IsArithmeticNode (t : Tree) : Prop := t.IsPolynomialNode ∨ t.IsFractionNode

/-- Whether a tree is a quotient with a quotient for its denominator. -/
def DividesByQuotient (t : Tree) : Prop :=
  t.kind = .divide ∧ ∃ x y, t.shown = [x, y] ∧ y.kind = .divide

/-- Whether no quotient in a tree has a quotient for its denominator. -/
def Unstacked (t : Tree) : Prop := t.All fun u => ¬ u.DividesByQuotient

theorem IsPolynomialNode.not_dividesByQuotient (h : t.IsPolynomialNode) :
    ¬ t.DividesByQuotient := by
  rintro ⟨hk, -⟩
  cases h with
  | identifier h | natural h => cases hk.symm.trans h.1
  | sum h | product h | difference h | negation h => cases hk.symm.trans h

/-- The value of a polynomial goes with numbers into any other ring. -/
theorem All.map_value {L : Type} [Ring K] [Div K] [Ring L] [Div L] (φ : K →+* L) (ρ : String → K)
    (h : t.All IsPolynomialNode) : φ (t.value ρ) = t.value fun name => φ (ρ name) := by
  induction h with
  | @intro t top _ ih =>
    have hmap : (t.shown.map (value ρ)).map φ = t.shown.map (value fun name => φ (ρ name)) := by
      rw [List.map_map]
      exact List.map_congr_left ih
    cases top with
    | identifier h =>
      obtain ⟨hk, name, hname, -⟩ := h
      rw [value_identifier hk hname, value_identifier hk hname]
    | natural h =>
      obtain ⟨hk, n, hn, -⟩ := h
      rw [value_integer hk hn, value_integer hk hn, map_intCast]
    | sum h => rw [value_sum h, value_sum h, map_list_sum, hmap]
    | product h => rw [value_product h, value_product h, map_list_prod, hmap]
    | @difference x y h _ hxy =>
      rw [value_difference h hxy, value_difference h hxy, map_sub, ih x (by simp [hxy]),
        ih y (by simp [hxy])]
    | @negation x h _ hx =>
      rw [value_negation h hx, value_negation h hx, map_neg, ih x (by simp [hx])]

theorem All.value_ne_zero [DivisionRing K] {ρ : String → K} (h : t.All IsFractionNode)
    (hρ : ∀ name, ρ name ≠ 0) : t.value ρ ≠ 0 := by
  induction h with
  | @intro t top _ ih =>
    cases top with
    | identifier h =>
      obtain ⟨hk, name, hname, -⟩ := h
      rw [value_identifier hk hname]
      exact hρ name
    | product h =>
      rw [value_product h]
      refine List.prod_ne_zero fun hzero => ?_
      obtain ⟨u, hu, hvalue⟩ := List.mem_map.1 hzero
      exact ih u hu hvalue
    | @quotient x y h hxy =>
      rw [value_quotient h hxy]
      exact div_ne_zero (ih x (by simp [hxy])) (ih y (by simp [hxy]))

end Tree

end MathTree

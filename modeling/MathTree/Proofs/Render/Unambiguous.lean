import Mathlib.Algebra.Field.Rat
import Mathlib.Tactic.Ring
import MathTree.Proofs.Render.FormulaValue

/-!
# Formulas of polynomials and of fractions

Trees of sums, differences and products that are written as the same text are worth the same, whatever
integers their names stand for (`formula_determines_polynomial`).  So are trees of products and
quotients for all numbers but zero, as long as no quotient has a quotient for its denominator
(`formula_determines_fraction`); without that they need not be (`formula_quotient_collides`).
-/

namespace MathTree

open Infix

variable {K : Type} {style : Formula.Style} {t x y : Tree}

namespace Tree

/-! ### Building trees -/

/-- A name. -/
def named (name : String) : Tree := .leaf (.identifier name)

/-- A product. -/
def product (factors : List Tree) : Tree := .node (.ofKind .times) factors

/-- A difference. -/
def minus (x y : Tree) : Tree := .node (.ofKind .minus) [x, y]

/-- A quotient. -/
def dividedBy (x y : Tree) : Tree := .node (.ofKind .divide) [x, y]

theorem isIdentifier_named {name : String} (h : IsName name) : (named name).IsIdentifier :=
  ⟨rfl, name, rfl, h⟩

theorem shown_product (factors : List Tree) : (product factors).shown = factors := List.take_length

theorem value_dividedBy [Ring K] [Div K] {ρ : String → K} :
    (x.dividedBy y).value ρ = x.value ρ / y.value ρ :=
  value_quotient rfl rfl

theorem All.pair {P : Tree → Prop} (hx : x.All P) (hy : y.All P) : ∀ u ∈ [x, y], u.All P :=
  List.forall_mem_cons.2 ⟨hx, List.forall_mem_singleton.2 hy⟩

/-! ### Polynomials -/

/-- Trees of names, whole numbers, sums, differences, products and negations with the same text are
worth the same. -/
theorem formula_determines_polynomial (style : Formula.Style) :
    (∀ t : Tree, t.All IsPolynomialNode → ∃ text, t.formula style = .ok text) ∧
    ∀ t t' : Tree, t.All IsPolynomialNode → t'.All IsPolynomialNode →
      t.formula style = t'.formula style → ∀ ρ : String → ℤ, t.value ρ = t'.value ρ := by
  have hnode {t : Tree} (h : t.All IsPolynomialNode) : t.All IsArithmeticNode := h.imp fun _ => .inl
  have hstack {t : Tree} (h : t.All IsPolynomialNode) : t.Unstacked :=
    h.imp fun _ hu => hu.not_dividesByQuotient
  refine ⟨fun t h => ?_, fun t t' h h' heq ρ => ?_⟩
  · obtain ⟨text, htext⟩ := (hnode h).exists_reads style (fun _ => (0 : ℚ)) (hstack h)
    exact ⟨text, htext.formula⟩
  · have hvalue := value_eq_of_formula_eq (ρ := fun name => (ρ name : ℚ)) (hnode h) (hstack h)
      (hnode h') (hstack h') heq
    have hcast {u : Tree} (hu : u.All IsPolynomialNode) :
        ((u.value ρ : ℤ) : ℚ) = u.value fun name => (ρ name : ℚ) := hu.map_value (Int.castRingHom ℚ) ρ
    rw [← hcast h, ← hcast h'] at hvalue
    exact Int.cast_injective hvalue

/-- The two ways to multiply three numbers, subtracted from a fourth. -/
theorem formula_determines_polynomial_products :
    let two : Tree := .leaf (.integerLiteral 2)
    let t := (named "S1").minus (product [named "k_1", product [named "x", two]])
    let t' := (named "S1").minus (product [named "k_1", named "x", two])
    (t.All IsPolynomialNode ∧ t'.All IsPolynomialNode ∧ t.formula = .ok "S1-k_1*x*2" ∧
      t'.formula = .ok "S1-k_1*x*2") ∧ ∀ ρ : String → ℤ, t.value ρ = t'.value ρ := by
  intro two t t'
  have hname {c : Char} {cs : List Char} {name : String} (h : name.toList = c :: cs)
      (hc : c.isAlpha) (hcs : cs.all fun d => d.isAlphanum || d == '_') :
      (named name).All IsPolynomialNode :=
    ⟨.identifier (isIdentifier_named (isName_of_isAlpha h hc hcs)), nofun⟩
  have htwo : two.All IsPolynomialNode := ⟨.natural ⟨rfl, 2, rfl, by decide⟩, nofun⟩
  have hproduct {u : Tree} {us : List Tree} (hus : ∀ v ∈ u :: us, v.All IsPolynomialNode) :
      (product (u :: us)).All IsPolynomialNode := by
    have hne : (product (u :: us)).shown ≠ [] := by
      rw [shown_product]
      exact List.cons_ne_nil u us
    exact .node (.product rfl hne) hus
  have hminus {y : Tree} (hy : y.All IsPolynomialNode) :
      ((named "S1").minus y).All IsPolynomialNode :=
    .node (.difference rfl rfl rfl) (All.pair (hname rfl rfl rfl) hy)
  have hk : (named "k_1").All IsPolynomialNode := hname rfl rfl rfl
  have hx : (named "x").All IsPolynomialNode := hname rfl rfl rfl
  have ht : t.All IsPolynomialNode :=
    hminus (hproduct (All.pair hk (hproduct (All.pair hx htwo))))
  have ht' : t'.All IsPolynomialNode :=
    hminus (hproduct (List.forall_mem_cons.2 ⟨hk, All.pair hx htwo⟩))
  have htext : t.formula = .ok "S1-k_1*x*2" := by decide
  have htext' : t'.formula = .ok "S1-k_1*x*2" := by decide
  obtain ⟨-, hvalue⟩ := formula_determines_polynomial {}
  exact ⟨⟨ht, ht', htext, htext'⟩, hvalue t t' ht ht' (htext.trans htext'.symm)⟩

/-! ### Fractions -/

theorem All.exists_formula (style : Formula.Style) (h : t.All IsFractionNode) :
    ∃ text, t.formula style = .ok text := by
  induction h with
  | @intro t top _ ih =>
    choose! texts hts using ih
    cases top with
    | identifier h =>
      obtain ⟨hk, name, hname, -⟩ := h
      exact ⟨name, formula_identifier hk hname⟩
    | product h => exact ⟨_, formula_product h hts⟩
    | quotient h hxy =>
      exact ⟨_, formula_quotient h hxy (hts _ (by simp [hxy])) (hts _ (by simp [hxy]))⟩

/-- A quotient is not bracketed as a denominator, so it is written as if it were not one. -/
theorem formula_dividedBy_dividedBy {a b c : Tree} (ha : a.All IsFractionNode)
    (hb : b.All IsFractionNode) (hc : c.All IsFractionNode) (hkind : b.kind ≠ .times) :
    (a.dividedBy (b.dividedBy c)).formula style = ((a.dividedBy b).dividedBy c).formula style := by
  obtain ⟨ta, hta⟩ := ha.exists_formula style
  obtain ⟨tb, htb⟩ := hb.exists_formula style
  obtain ⟨tc, htc⟩ := hc.exists_formula style
  have hover {x y : Tree} {a b : String} (hx : x.formula style = .ok a)
      (hy : y.formula style = .ok b) :
      (x.dividedBy y).formula style = .ok (x.operandText a ++ "/" ++ y.denominatorText b) :=
    formula_quotient rfl rfl hx hy
  have hplain : b.operandText tb = b.denominatorText tb := by
    cases hb with
    | intro top _ =>
      cases top with
      | identifier h => simp [operandText, denominatorText, isLoose, h.1]
      | product h => exact absurd h hkind
      | quotient h => simp [operandText, denominatorText, isLoose, h]
  have hdenominator (text : String) : (b.dividedBy c).denominatorText text = text := rfl
  have hoperand (text : String) : (a.dividedBy b).operandText text = text := rfl
  rw [hover hta (hover htb htc), hover (hover hta htb) htc, hdenominator, hoperand, hplain]
  simp only [String.append_assoc]

/-- Trees of names, products and quotients with the same text are worth the same, as long as no
quotient has a quotient for its denominator.  The two ways to group `a/b/c` are written as the same
text, and are worth the same just if the square of `c` is one. -/
theorem formula_determines_fraction (style : Formula.Style) :
    (∀ t : Tree, t.All IsFractionNode → ∃ text, t.formula style = .ok text) ∧
    (∀ t t' : Tree, t.All IsFractionNode → t'.All IsFractionNode → t.Unstacked → t'.Unstacked →
      t.formula style = t'.formula style →
        ∀ ρ : String → ℚ, (∀ name, ρ name ≠ 0) → t.value ρ = t'.value ρ) ∧
    ∀ a b c : Tree, a.All IsFractionNode → b.All IsFractionNode → c.All IsFractionNode →
      b.kind ≠ .times →
        (a.dividedBy (b.dividedBy c)).formula style = ((a.dividedBy b).dividedBy c).formula style ∧
        ∀ ρ : String → ℚ, (∀ name, ρ name ≠ 0) →
          ((a.dividedBy (b.dividedBy c)).value ρ = ((a.dividedBy b).dividedBy c).value ρ ↔
            c.value ρ ^ 2 = 1) := by
  refine ⟨fun t h => h.exists_formula style, fun t t' h h' hstack hstack' heq ρ _ => ?_,
    fun a b c ha hb hc hkind => ⟨formula_dividedBy_dividedBy ha hb hc hkind, fun ρ hρ => ?_⟩⟩
  · exact value_eq_of_formula_eq (h.imp fun _ => .inr) hstack (h'.imp fun _ => .inr) hstack' heq
  · have hab : a.value ρ * b.value ρ ≠ 0 := mul_ne_zero (ha.value_ne_zero hρ) (hb.value_ne_zero hρ)
    have hb' := hb.value_ne_zero hρ
    have hbc : b.value ρ * c.value ρ ≠ 0 := mul_ne_zero hb' (hc.value_ne_zero hρ)
    rw [value_dividedBy, value_dividedBy, value_dividedBy, value_dividedBy, div_div_eq_mul_div,
      div_div, div_eq_div_iff hb' hbc]
    have hcross : a.value ρ * c.value ρ * (b.value ρ * c.value ρ)
        = a.value ρ * b.value ρ * c.value ρ ^ 2 := by ring
    rw [hcross]
    exact mul_eq_left₀ hab

theorem all_named {name : String} (h : IsName name) : (named name).All IsFractionNode :=
  ⟨.identifier (isIdentifier_named h), nofun⟩

theorem All.dividedBy (hx : x.All IsFractionNode) (hy : y.All IsFractionNode) :
    (x.dividedBy y).All IsFractionNode :=
  .node (.quotient rfl rfl) (All.pair hx hy)

theorem All.mul (hx : x.All IsFractionNode) (hy : y.All IsFractionNode) :
    (product [x, y]).All IsFractionNode :=
  .node (.product rfl (Nat.le_refl 2)) (All.pair hx hy)

theorem unstacked_named (name : String) : (named name).Unstacked :=
  ⟨(fun hd => nomatch hd.1), nofun⟩

theorem Unstacked.dividedBy (hx : x.Unstacked) (hy : y.Unstacked) (hkind : y.kind ≠ .divide) :
    (x.dividedBy y).Unstacked := by
  refine .node ?_ (All.pair hx hy)
  rintro ⟨-, _, _, hxy, hk⟩
  cases hxy
  exact hkind hk

theorem Unstacked.mul (hx : x.Unstacked) (hy : y.Unstacked) : (product [x, y]).Unstacked :=
  .node (fun hd => nomatch hd.1) (All.pair hx hy)

/-- A product that ends with a quotient, and the quotient of a product. -/
theorem formula_determines_fraction_products :
    let a := named "a"; let b := named "b"; let c := named "c"
    let t := product [a, b.dividedBy c]
    let t' := (product [a, b]).dividedBy c
    let ρ : String → ℚ := fun name => if name = "c" then 3 else 2
    (t.All IsFractionNode ∧ t'.All IsFractionNode ∧ t.Unstacked ∧ t'.Unstacked ∧
      t.formula = .ok "a*b/c" ∧ t'.formula = .ok "a*b/c" ∧ (∀ name, ρ name ≠ 0) ∧
      a.All IsFractionNode ∧ b.All IsFractionNode ∧ c.All IsFractionNode ∧ b.kind ≠ .times) ∧
      t.value ρ = t'.value ρ ∧
      ((a.dividedBy (b.dividedBy c)).value ρ = ((a.dividedBy b).dividedBy c).value ρ ↔
        c.value ρ ^ 2 = 1) := by
  intro a b c t t' ρ
  have ha : a.All IsFractionNode := all_named (isName_of_isAlpha rfl rfl rfl)
  have hb : b.All IsFractionNode := all_named (isName_of_isAlpha rfl rfl rfl)
  have hc : c.All IsFractionNode := all_named (isName_of_isAlpha rfl rfl rfl)
  have ht : t.All IsFractionNode := ha.mul (hb.dividedBy hc)
  have ht' : t'.All IsFractionNode := (ha.mul hb).dividedBy hc
  have hstack : t.Unstacked :=
    (unstacked_named "a").mul ((unstacked_named "b").dividedBy (unstacked_named "c") nofun)
  have hstack' : t'.Unstacked :=
    ((unstacked_named "a").mul (unstacked_named "b")).dividedBy (unstacked_named "c") nofun
  have htext : t.formula = .ok "a*b/c" := by decide
  have htext' : t'.formula = .ok "a*b/c" := by decide
  have hρ (name : String) : ρ name ≠ 0 := by
    dsimp only [ρ]
    split_ifs <;> norm_num
  have hkind : b.kind ≠ .times := by decide
  obtain ⟨-, hvalue, hgrouping⟩ := formula_determines_fraction {}
  exact ⟨⟨ht, ht', hstack, hstack', htext, htext', hρ, ha, hb, hc, hkind⟩,
    hvalue t t' ht ht' hstack hstack' (htext.trans htext'.symm) ρ hρ,
    (hgrouping a b c ha hb hc hkind).2 ρ hρ⟩

/-- Two quotients that are written as the same text, of which one is worth two and the other a
half. -/
theorem formula_quotient_collides :
    let t := (named "a").dividedBy ((named "b").dividedBy (named "c"))
    let t' := ((named "a").dividedBy (named "b")).dividedBy (named "c")
    let ρ : String → ℚ := fun _ => 2
    (t.All IsFractionNode ∧ t'.All IsFractionNode ∧ t.formula = .ok "a/b/c" ∧
      t'.formula = .ok "a/b/c" ∧ ∀ name, ρ name ≠ 0) ∧ t.value ρ = 2 ∧ t'.value ρ = 1 / 2 := by
  intro t t' ρ
  have hname (name : String) : (named name).value ρ = 2 := value_identifier rfl rfl
  have ha : (named "a").All IsFractionNode := all_named (isName_of_isAlpha rfl rfl rfl)
  have hb : (named "b").All IsFractionNode := all_named (isName_of_isAlpha rfl rfl rfl)
  have hc : (named "c").All IsFractionNode := all_named (isName_of_isAlpha rfl rfl rfl)
  refine ⟨⟨ha.dividedBy (hb.dividedBy hc), (ha.dividedBy hb).dividedBy hc, by decide, by decide,
    fun _ => two_ne_zero⟩, ?_, ?_⟩
  · rw [value_dividedBy, value_dividedBy, hname, hname, hname]
    norm_num
  · rw [value_dividedBy, value_dividedBy, hname, hname, hname]
    norm_num

end Tree

end MathTree

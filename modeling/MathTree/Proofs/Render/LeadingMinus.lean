import MathTree.Proofs.Latex.Front
import MathTree.Proofs.Render.FormulaFront

/-!
# Minus signs behind operators

A sum, a difference and a product bracket other sums, differences and negations behind their signs,
and real literals below zero.  Nothing else is bracketed, whatever it starts with.  So an operand
brings a minus sign with it just where it is led by one and is none of those
(`Tree.minus_behind_sign_iff`): a negative integer does (`Tree.two_signs_in_a_row`).
-/

namespace MathTree

namespace Tree

/-- Behind a sign of a sum, a difference or a product stands a minus sign just where the operand starts
with one and is no sum, difference, negation or real literal. -/
theorem minus_behind_sign_iff (style : Formula.Style) (style' : Latex.Style) {t : Tree}
    (hfirm : t.IsFirm)
    (hk : t.kind = .plus ∨ t.kind = .times ∨ t.kind = .minus ∧ t.head.form ≠ .unary) :
    (∀ text, t.formula style = .ok text → ∃ r, t.reading? = .ok r ∧
      t.formula style = Formula.joined t.head <$> Formula.insertions style t.head r.operands ∧
      ∀ (i : Nat) (u : Tree), 1 ≤ i → r.operands[i]? = some u →
        ∃ s, Formula.insertion style t.head i u = .ok s ∧
          (StartsWithMinus s ↔ u.kind ∉ [.plus, .minus, .real] ∧ u.Led (Formula.front style))) ∧
    (∀ text, t.latex style' = .ok text → ∃ r, t.reading? = .ok r ∧
      t.latex style' = Latex.joined t.head <$> Latex.insertions style' t.head r.operands ∧
      ∀ (i : Nat) (u : Tree), 1 ≤ i → r.operands[i]? = some u →
        ∃ s, Latex.insertion style' t.head i u = .ok s ∧
          (StartsWithMinus s ↔ u.kind ∉ [.plus, .minus, .real] ∧ u.Led (Latex.front style'))) :=
  ⟨fun _ h => (Formula.fronts_renderer style).behind (Formula.joins_renderer style) hk hfirm h,
    fun _ h => (Latex.fronts_renderer style').behind (Latex.joins_renderer style') hk hfirm h⟩

/-- A negation in a sum is bracketed, and a product that starts with a negative integer is not. -/
theorem minus_behind_sign_iff_sum :
    let product : Tree := .node (.ofKind .times)
      [leaf (.integerLiteral (-3)), leaf (.identifier "c")]
    let negation : Tree := .node (.blank .unary .minus) [leaf (.identifier "b")]
    let t : Tree := .node (.ofKind .plus) [leaf (.identifier "a"), negation, product]
    (t.IsFirm ∧ t.kind = .plus ∧ t.formula = .ok "a+(-b)+-3*c" ∧
        t.latex = .ok "a+\\left(-b\\right)+-3\\cdot c") ∧
      (product.Led (Formula.front {}) ∧ product.Led (Latex.front {})) ∧
      Formula.insertion {} t.head 1 negation = .ok "(-b)" ∧
      Latex.insertion {} t.head 1 negation = .ok "\\left(-b\\right)" := by
  intro product negation t
  have hformula : t.formula = .ok "a+(-b)+-3*c" := by decide +kernel
  have hlatex : t.latex = .ok "a+\\left(-b\\right)+-3\\cdot c" := by decide +kernel
  have hleaf {h : Head} (hname : ∀ name, h.name = .ok name → IsFirmName name) : (leaf h).IsFirm :=
    .node hname nofun
  have hnamed {name : String} (hname : IsFirmName name) : (leaf (.identifier name)).IsFirm :=
    hleaf fun _ h => Except.ok.inj h ▸ hname
  have ha : (leaf (.identifier "a")).IsFirm :=
    hnamed (isFirmName_of_cons rfl (by decide) (by decide))
  have hb : (leaf (.identifier "b")).IsFirm :=
    hnamed (isFirmName_of_cons rfl (by decide) (by decide))
  have hc : (leaf (.identifier "c")).IsFirm :=
    hnamed (isFirmName_of_cons rfl (by decide) (by decide))
  have hthree : (leaf (.integerLiteral (-3))).IsFirm := hleaf nofun
  have hfirm : t.IsFirm := by
    have hnegation : negation.IsFirm := .node nofun (List.forall_mem_singleton.2 hb)
    have hproduct : product.IsFirm :=
      .node nofun (List.forall_mem_cons.2 ⟨hthree, List.forall_mem_singleton.2 hc⟩)
    exact .node nofun (List.forall_mem_cons.2
      ⟨ha, List.forall_mem_cons.2 ⟨hnegation, List.forall_mem_singleton.2 hproduct⟩⟩)
  obtain ⟨hinline, hstacked⟩ := minus_behind_sign_iff {} {} hfirm (.inl rfl)
  obtain ⟨r, hr, -, hplaces⟩ := hinline _ hformula
  obtain ⟨r', hr', -, hplaces'⟩ := hstacked _ hlatex
  have hread : r = .sum t.children := Except.ok.inj (hr.symm.trans rfl)
  have hread' : r' = .sum t.children := Except.ok.inj (hr'.symm.trans rfl)
  subst hread hread'
  obtain ⟨s, hs, hbehind⟩ := hplaces 2 product (by decide) rfl
  obtain ⟨s', hs', hbehind'⟩ := hplaces' 2 product (by decide) rfl
  have htext : Formula.insertion {} t.head 2 product = .ok "-3*c" := by decide +kernel
  have htext' : Latex.insertion {} t.head 2 product = .ok "-3\\cdot c" := by decide +kernel
  have hminus : StartsWithMinus s := by
    rw [← Except.ok.inj (htext.symm.trans hs)]
    decide
  have hminus' : StartsWithMinus s' := by
    rw [← Except.ok.inj (htext'.symm.trans hs')]
    decide
  refine ⟨⟨hfirm, rfl, hformula, hlatex⟩, ⟨(hbehind.1 hminus).2, (hbehind'.1 hminus').2⟩, ?_⟩
  decide +kernel

/-- The sum of a name and a negative integer is written with two signs in a row. -/
theorem two_signs_in_a_row :
    let three : Tree := leaf (.integerLiteral (-3))
    let t : Tree := .node (.ofKind .plus) [leaf (.identifier "a"), three]
    t.reading? = .ok (.sum [leaf (.identifier "a"), three]) ∧
      (Formula.insertion {} t.head 1 three = .ok "-3" ∧ t.formula = .ok "a+-3") ∧
      (Latex.insertion {} t.head 1 three = .ok "-3" ∧ t.latex = .ok "a+-3") ∧
      StartsWithMinus "-3" := by
  refine ⟨rfl, ?_⟩
  decide +kernel

end Tree

end MathTree

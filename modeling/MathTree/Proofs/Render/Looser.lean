import MathTree.Proofs.Render.Insertions

/-!
# Relations and connectives as operands of arithmetic

A relation binds looser than any sign of arithmetic, and so does a connective that is written between
its operands (`Tree.IsLooser`).  Operators of arithmetic tell their operands by a list of kinds that has
neither in it.  So they never bracket one, in whatever place, and an operator has all such operands in
brackets only if it has none (`Tree.formula_brackets_looser_iff`): what is written for the sum of `a`
and `b < c` reads as a comparison of the sum of `a` and `b` (`Tree.formula_sum_of_comparison`).
-/

namespace MathTree

namespace Tree

variable {style : Formula.Style} {t u : Tree} {text : String}

/-- Whether a formula has signs between the operands of a tree that bind looser than arithmetic. -/
def IsLooser (style : Formula.Style) (u : Tree) : Prop :=
  u.kind.isRelational ∨
    ((∃ c, u.kind = .connective c) ∧ style.logicAsCalls = false ∧ 2 ≤ u.childCount)

theorem IsLooser.isLoose_eq (h : u.IsLooser style) : u.isLoose = false := by
  unfold isLoose
  obtain h | ⟨⟨c, hc⟩, -⟩ := h
  · cases hk : u.kind <;> simp_all [Kind.isRelational]
  · rw [hc]

theorem IsLooser.isCompound_eq (h : u.IsLooser style) : Formula.isCompound u = false := by
  unfold Formula.isCompound
  obtain h | ⟨⟨c, hc⟩, -⟩ := h
  · cases hk : u.kind <;> simp_all [Kind.isRelational]
  · rw [hc]

/-- No operator of arithmetic brackets an operand that binds looser. -/
theorem IsLooser.encloses_eq (h : u.IsLooser style) {head : Head} (hk : head.kind.isArithmetic)
    (place : Nat) : encloses isLoose Formula.isCompound head place u = false := by
  have hloose := h.isLoose_eq
  have hcompound := h.isCompound_eq
  cases hkind : head.kind <;> simp_all [encloses, Kind.isArithmetic]

theorem IsLooser.insertion_eq (h : u.IsLooser style) {head : Head} (hk : head.kind.isArithmetic)
    (place : Nat) : Formula.insertion style head place u = u.formula style := by
  rw [Formula.insertion, Renderer.insertion, h.encloses_eq hk]
  exact id_map _

end Tree

namespace Formula

/-- A text in brackets is another text. -/
theorem brackets_ne (text : String) : brackets text ≠ text := fun h =>
  absurd ((brackets_renderer {}).longer text) (by rw [h]; exact Nat.lt_irrefl _)

end Formula

namespace Tree

variable {style : Formula.Style} {t : Tree} {text : String}

/-- An operator of arithmetic is written as what it inserts for its operands.  For an operand that binds
looser it inserts the text of the operand as it is, so that it brackets all of these operands just where
there are none. -/
theorem formula_brackets_looser_iff (hk : t.kind.isArithmetic) (h : t.formula style = .ok text) :
    ∃ r, t.reading? = .ok r ∧
      t.formula style = Formula.joined t.head <$> Formula.insertions style t.head r.operands ∧
      (∀ (i : Nat) (u : Tree), r.operands[i]? = some u → u.IsLooser style →
        ∃ s, u.formula style = .ok s ∧ Formula.insertion style t.head i u = .ok s) ∧
      ((∀ (i : Nat) (u : Tree), r.operands[i]? = some u → u.IsLooser style →
          Formula.insertion style t.head i u = Formula.brackets <$> u.formula style) ↔
        ∀ u ∈ r.operands, ¬ u.IsLooser style) := by
  have hR := Formula.joins_renderer style
  obtain ⟨r, hr⟩ := hR.exists_reading h
  have hrow : t.formula style
      = Formula.joined t.head <$> Formula.insertions style t.head r.operands := hR.render_eq hr hk
  obtain ⟨texts, htexts, -⟩ := exists_of_map_eq_ok (hrow.symm.trans h)
  have hplain (i : Nat) (u : Tree) (hu : r.operands[i]? = some u) (hlooser : u.IsLooser style) :
      ∃ s, u.formula style = .ok s ∧ Formula.insertion style t.head i u = .ok s := by
    obtain ⟨s, hs, -⟩ := Renderer.getElem?_insertions htexts hu
    exact ⟨s, (hlooser.insertion_eq hk i).symm.trans hs, hs⟩
  refine ⟨r, hr, hrow, hplain, fun hall u hu hlooser => ?_,
    fun hnone i u hu hlooser => absurd hlooser (hnone u (List.mem_of_getElem? hu))⟩
  obtain ⟨i, hi⟩ := List.getElem?_of_mem hu
  obtain ⟨s, hs, hinserted⟩ := hplain i u hi hlooser
  have htwice := hall i u hi hlooser
  rw [hs, hinserted] at htwice
  exact Formula.brackets_ne s (Except.ok.inj htwice).symm

/-- A comparison above a fraction stroke, and a conjunction below it. -/
theorem formula_brackets_looser_iff_quotient :
    let comparison : Tree :=
      .node (.ofKind (.relation .lt)) [leaf (.identifier "a"), leaf (.identifier "b")]
    let conjunction : Tree :=
      .node (.ofKind (.connective .and)) [leaf (.identifier "c"), leaf (.identifier "d")]
    let t : Tree := .node (.ofKind .divide) [comparison, conjunction]
    (t.kind.isArithmetic ∧ t.formula = .ok "a < b/c && d") ∧
      (comparison.IsLooser {} ∧ conjunction.IsLooser {}) ∧
      Formula.insertion {} t.head 0 comparison = .ok "a < b" ∧
      Formula.insertion {} t.head 1 conjunction = .ok "c && d" := by
  intro comparison conjunction t
  have htext : t.formula = .ok "a < b/c && d" := by decide +kernel
  have hlt : comparison.IsLooser {} := .inl rfl
  have hand : conjunction.IsLooser {} := .inr ⟨⟨.and, rfl⟩, rfl, by decide⟩
  have hleft : comparison.formula = .ok "a < b" := by decide +kernel
  have hright : conjunction.formula = .ok "c && d" := by decide +kernel
  obtain ⟨r, hr, -, hplain, -⟩ := formula_brackets_looser_iff (t := t) rfl htext
  have hread : r = .quotient comparison conjunction := Except.ok.inj (hr.symm.trans rfl)
  subst hread
  obtain ⟨s, hs, habove⟩ := hplain 0 comparison rfl hlt
  obtain ⟨s', hs', hbelow⟩ := hplain 1 conjunction rfl hand
  rw [← hs, hleft] at habove
  rw [← hs', hright] at hbelow
  exact ⟨⟨rfl, htext⟩, ⟨hlt, hand⟩, habove, hbelow⟩

/-- The sum of a name and a comparison is written without brackets, as the comparison of a sum is. -/
theorem formula_sum_of_comparison :
    let comparison : Tree :=
      .node (.ofKind (.relation .lt)) [leaf (.identifier "b"), leaf (.identifier "c")]
    let sum : Tree := .node (.ofKind .plus) [leaf (.identifier "a"), leaf (.identifier "b")]
    let ofComparison : Tree := .node (.ofKind .plus) [leaf (.identifier "a"), comparison]
    let ofSum : Tree := .node (.ofKind (.relation .lt)) [sum, leaf (.identifier "c")]
    comparison.IsLooser {} ∧ ofComparison.reading? = .ok (.sum [leaf (.identifier "a"), comparison]) ∧
      Formula.insertion {} ofComparison.head 1 comparison = .ok "b < c" ∧
      Formula.brackets <$> comparison.formula = .ok "(b < c)" ∧
      ofComparison.formula = .ok "a+b < c" ∧ ofSum.formula = .ok "a+b < c" := by
  refine ⟨.inl rfl, rfl, ?_⟩
  decide +kernel

end Tree

end MathTree

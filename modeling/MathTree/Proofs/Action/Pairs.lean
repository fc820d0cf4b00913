import MathTree.Proofs.Action.Placement
import MathTree.Proofs.Render.Acceptance

/-!
# Cases and what they were given

A case is made in two moves: the value goes into a fresh qualifier, and then the condition goes behind
it.  The second move takes the condition from wherever it is by then, and that may be the case itself.
So a case holds just the value and the condition that it was given, and can be rendered if they can,
unless a single node was given as both (`Reachable.holdsPair_iff`).  The placeholder, which can stand
in many places, can be both.
-/

namespace MathTree

open Forest

variable {f g : Forest} {d p v c w : NodeId}

namespace Tree

/-- Whether each notation accepts a tree just if it accepts two others. -/
structure AcceptedWith (t v c : Tree) : Prop where
  formula : ∀ style, (t.formula style).isOk ↔ (v.formula style).isOk ∧ (c.formula style).isOk
  latex : ∀ style, (t.latex style).isOk ↔ (v.latex style).isOk ∧ (c.latex style).isOk
  mathElement : ∀ indent,
    (t.mathElement indent).isOk ↔ (v.mathElement indent).isOk ∧ (c.mathElement indent).isOk
  mathDocument : ∀ indent,
    (t.mathDocument indent).isOk ↔ (v.mathDocument indent).isOk ∧ (c.mathDocument indent).isOk

/-- A case of a value and a condition is accepted just if both are. -/
theorem acceptedWith_piece (v c : Tree) :
    AcceptedWith (.node (.blank .qualifier (.qualifier .piece)) [v, c]) v c := by
  have hr : reading? (.node (.blank .qualifier (.qualifier .piece)) [v, c])
      = .ok (.qualifier .piece [v, c]) := rfl
  have hformula (style : Formula.Style) := (Formula.draws_form style
    (r := .qualifier .piece [v, c]) rfl).isOk_iff
  have hlatex (style : Latex.Style) := (Latex.draws_form style
    (r := .qualifier .piece [v, c]) nofun ⟨v, c, rfl⟩).isOk_iff
  have helement : (element (.node (.blank .qualifier (.qualifier .piece)) [v, c])).isOk ↔
      v.element.isOk ∧ c.element.isOk := by
    rw [element, elementWith_of_ok _ hr, MathML.isOk_draft_iff]
    simp [Reading.refusal?, Reading.written, Reading.operands]
  refine ⟨fun style => ?_, fun style => ?_, fun indent => ?_, fun indent => ?_⟩
  · rw [formula, render_of_ok _ hr]
    refine (hformula style).trans ?_
    simp [Reading.written, Reading.operands, formula]
  · rw [latex, render_of_ok _ hr]
    refine (hlatex style).trans ?_
    simp [Reading.operands, latex]
  · simp only [isOk_mathElement_iff, helement]
  · simp only [isOk_mathDocument_iff, helement]

end Tree

namespace Forest

/-- A node is a case that holds just this value and this condition, and it is accepted just if they
are. -/
structure HoldsPair (f : Forest) (w v c : NodeId) : Prop where
  head : f.head w = .blank .qualifier (.qualifier .piece)
  children : f.children w = [v, c]
  accepted : (f.tree w).AcceptedWith (f.tree v) (f.tree c)

/-- Of a case it is enough to know what it holds. -/
theorem Linked.holdsPair_iff_children (hf : f.Linked) (hw : f.Has w)
    (hhead : f.head w = .blank .qualifier (.qualifier .piece)) :
    f.HoldsPair w v c ↔ f.children w = [v, c] := by
  refine ⟨HoldsPair.children, fun hchildren => ⟨hhead, hchildren, ?_⟩⟩
  rw [hf.tree_eq hw, hhead, hchildren]
  exact Tree.acceptedWith_piece (f.tree v) (f.tree c)

/-! ### What the two moves leave -/

/-- The condition goes behind the value, or takes the value's place if it is the same node. -/
theorem children_wrapPair (hf : f.Linked) (hv : f.Has v) (hc : f.Has c) :
    (f.wrapPair v c).children f.next = if v = c ∧ v ≠ .placeholder then [c] else [v, c] := by
  have hw := wrapped_wrap hf hv .piece
  have hl := hw.linked hf
  rw [wrapPair, (hl.placed_last hw.has (hw.steps.has hc)).children, if_pos rfl, others,
    children_wrap_next hf]
  by_cases hplaceholder : c = .placeholder
  · rw [if_pos hplaceholder, if_neg fun h => h.2 (h.1.trans hplaceholder)]
    rfl
  · rw [if_neg hplaceholder]
    by_cases heq : v = c
    · rw [if_pos ⟨heq, heq ▸ hplaceholder⟩, heq, List.erase_cons_head]
      rfl
    · rw [if_neg fun h => heq h.1, List.erase_of_not_mem fun h => heq (List.mem_singleton.1 h).symm]
      rfl

theorem children_wrapPair_eq_iff (hf : f.Linked) (hv : f.Has v) (hc : f.Has c) :
    (f.wrapPair v c).children f.next = [v, c] ↔ ¬ (v = c ∧ v ≠ .placeholder) := by
  rw [children_wrapPair hf hv hc]
  split_ifs with h
  · exact iff_of_false (fun he => by cases he) (not_not.2 h)
  · exact iff_of_true rfl h

/-- The other nodes only lose children to a case. -/
theorem children_wrapPair_subset (hf : f.Linked) (hv : f.Has v) (hc : f.Has c) (hp : f.Has p) :
    (f.wrapPair v c).children p ⊆ f.children p := by
  have hw := wrapped_wrap hf hv .piece
  rw [wrapPair, ((hw.linked hf).placed_last hw.has (hw.steps.has hc)).children,
    if_neg (hw.ne hp), children_wrap hf hp]
  have hsub (l : List NodeId) (d : NodeId) : l.erase d ⊆ l := (List.erase_sublist).subset
  split_ifs
  · exact List.Subset.trans (hsub _ _) (hsub _ _)
  · exact hsub _ _
  · exact hsub _ _
  · exact List.Subset.refl _

/-- A new case is linked in below a `piecewise` as it was made. -/
theorem addCase_of_ok (hf : f.Linked) (hp : f.Has p) (hv : f.Has v) (hc : f.Has c)
    (hok : (Edit.addCase p v c).run f = (.ok (), g)) :
    ∃ i ≤ ((f.wrapPair v c).children p).length,
      (f.wrapPair v c).Placed g p (((f.wrapPair v c).children p).insertIdx i f.next) f.next [] := by
  have hrun := Edit.run_addCase_eq (f := f) (p := p) (v := v) (c := c)
  rw [hok] at hrun
  cases hk : (f.head p).caseCount with
  | error fault =>
    rw [hk] at hrun
    cases hrun
  | ok k =>
    cases hav : f.adoptFault? p v with
    | some fault =>
      rw [hk, hav] at hrun
      cases hrun
    | none =>
      cases hac : f.adoptFault? p c with
      | some fault =>
        rw [hk, hav, hac] at hrun
        cases hrun
      | none =>
        rw [Edit.run_addCase hf hp hv hc hk hav hac] at hok
        cases hok
        have hw := wrapped_wrapPair hf hv hc
        refine ⟨_, ?_, placed_link (hw.steps.has hp) hw.has hw.free _⟩
        cases hi : (f.wrapPair v c).fallbackPosition p with
        | none => exact Nat.le_refl _
        | some i => exact Nat.le_of_lt (List.findIdx?_eq_some_iff_getElem.1 hi).1

/-- A case is made of any two nodes, and it holds just the value and the condition that it was given,
and can be rendered if they can, unless they are one node that is not the placeholder.  The same is true
of the case that is added to a `piecewise`, the one child of it that is new. -/
theorem Reachable.holdsPair_iff (hf : f.Reachable) (hv : f.Has v) (hc : f.Has c) :
    (∃ w g, (Edit.piece v c).run f = (.ok w, g) ∧ ¬ f.Has w ∧
      (g.HoldsPair w v c ↔ ¬ (v = c ∧ v ≠ .placeholder))) ∧
    ∀ p g, f.Has p → (Edit.addCase p v c).run f = (.ok (), g) →
      ∃ w ∈ g.children p, ¬ f.Has w ∧ (∀ d ∈ g.children p, d = w ∨ d ∈ f.children p) ∧
        (g.HoldsPair w v c ↔ ¬ (v = c ∧ v ≠ .placeholder)) := by
  have hl := hf.linked
  have hw := wrapped_wrapPair hl hv hc
  refine ⟨⟨f.next, f.wrapPair v c, Edit.run_piece hl hv hc, hw.fresh, ?_⟩, fun p g hp hok => ?_⟩
  · rw [(hw.linked hl).holdsPair_iff_children hw.has hw.head, children_wrapPair_eq_iff hl hv hc]
  · obtain ⟨i, hi, hplaced⟩ := addCase_of_ok hl hp hv hc hok
    have hne : f.next ≠ p := (hw.ne hp).symm
    have hmem (d : NodeId) : d ∈ g.children p ↔ d = f.next ∨ d ∈ (f.wrapPair v c).children p := by
      rw [hplaced.children, if_pos rfl, List.mem_insertIdx hi]
    -- the case itself is neither the parent that it comes to nor one that it comes from
    have hchildren : g.children f.next = (f.wrapPair v c).children f.next := by
      rw [hplaced.children, if_neg hne, hw.free, if_neg (Option.some_ne_none _).symm]
    have hhead : g.head f.next = .blank .qualifier (.qualifier .piece) := by
      rw [hplaced.head, hw.free, if_neg (by simp [hne]), hw.head]
    have hgl : g.Linked := by
      have hafter : (f.after (.addCase p v c)).Linked :=
        hl.after (by simp [Admits, Action.nodes, hp, hv, hc])
      rwa [after_map rfl, hok] at hafter
    refine ⟨f.next, (hmem _).2 (.inl rfl), hw.fresh, fun d hd => ?_, ?_⟩
    · exact ((hmem d).1 hd).imp_right fun hd => children_wrapPair_subset hl hv hc hp hd
    · rw [hgl.holdsPair_iff_children ((hplaced.has _).2 hw.has) hhead, hchildren,
        children_wrapPair_eq_iff hl hv hc]

/-- A `piecewise`, node one, with a case, node four, of a name, node two, below a minus sign, node three,
as the value and the name as the condition; the name has left its place below the sign for that. -/
def partedCase : List Action :=
  [.plant (.ofKind .piecewise), .plant (.identifier "x"), .plant (.ofForm .unary .minus),
    .append ⟨3⟩ ⟨2⟩, .addCase ⟨1⟩ ⟨3⟩ ⟨2⟩]

/-- The two parts of a case become the parts of another, the other way round. -/
theorem holdsPair_iff_partedCase :
    let f := start.run partedCase
    (f.Reachable ∧ f.Has ⟨2⟩ ∧ f.Has ⟨3⟩ ∧ f.Has ⟨1⟩) ∧ f.children ⟨4⟩ = [⟨3⟩, ⟨2⟩] ∧
      (∃ w g, (Edit.piece ⟨2⟩ ⟨3⟩).run f = (.ok w, g) ∧ g.HoldsPair w ⟨2⟩ ⟨3⟩) ∧
      ∃ w g, (Edit.addCase ⟨1⟩ ⟨2⟩ ⟨3⟩).run f = (.ok (), g) ∧ w ∈ g.children ⟨1⟩ ∧
        g.HoldsPair w ⟨2⟩ ⟨3⟩ := by
  have hf : (start.run partedCase).Reachable := Reachable.start.run (by decide)
  have hhas : (start.run partedCase).Has ⟨2⟩ ∧ (start.run partedCase).Has ⟨3⟩ ∧
      (start.run partedCase).Has ⟨1⟩ := by decide +kernel
  obtain ⟨hv, hc, hp⟩ := hhas
  have hchildren : (start.run partedCase).children ⟨4⟩ = [⟨3⟩, ⟨2⟩] := by decide +kernel
  have hok : ((Edit.addCase ⟨1⟩ ⟨2⟩ ⟨3⟩).run (start.run partedCase)).1 = .ok () := by
    decide +kernel
  have hne : ¬ ((⟨2⟩ : NodeId) = ⟨3⟩ ∧ (⟨2⟩ : NodeId) ≠ .placeholder) := by decide
  obtain ⟨⟨w, g, hrun, -, hiff⟩, hadd⟩ := hf.holdsPair_iff hv hc
  obtain ⟨w', hw', -, -, hiff'⟩ := hadd ⟨1⟩ _ hp (Prod.ext hok rfl)
  exact ⟨⟨hf, hv, hc, hp⟩, hchildren, ⟨w, g, hrun, hiff.2 hne⟩, w', _, Prod.ext hok rfl, hw',
    hiff'.2 hne⟩

/-- A case of one name as both holds it once, and cannot be rendered though the name can. -/
theorem exists_case_without_condition :
    let f := start.run [.plant (.identifier "x"), .plant (.ofKind .piecewise)]
    let g := f.after (.addCase ⟨2⟩ ⟨1⟩ ⟨1⟩)
    f.Reachable ∧ ((Edit.addCase ⟨2⟩ ⟨1⟩ ⟨1⟩).run f).1 = .ok () ∧ g.children ⟨2⟩ = [⟨3⟩] ∧
      g.children ⟨3⟩ = [⟨1⟩] ∧ (g.tree ⟨1⟩).formula = .ok "x" ∧
      (g.tree ⟨3⟩).formula = .error (.arity (.qualifier .piece) 2 1) ∧
      ((Edit.piece ⟨1⟩ ⟨1⟩).run f).1 = .ok ⟨3⟩ ∧
      ((Edit.piece ⟨1⟩ ⟨1⟩).run f).2.children ⟨3⟩ = [⟨1⟩] := by
  intro f g
  exact ⟨Reachable.start.run (by decide), by decide +kernel⟩

end Forest

end MathTree

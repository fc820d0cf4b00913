import MathTree.Proofs.Edit.Compound

/-!
# Nested applications

`Edit.leftComb` applies an operator to its first two operands, the result of that and the third
operand, and so on.  `Forest.LeftComb` is the shape that comes of it.  Each round of the loop puts one
more node on top of it (`Forest.Nested.combine`), so that the whole loop nests all operands
(`Edit.nest_spec`).  A value that each node of the nest has from its two operands is the one that all
operands have together, taken from the left (`LeftComb.value`).
-/

namespace MathTree

open Forest

variable {S : NodeId → Prop} {e f g : Forest} {r p x y : NodeId} {h : Head} {kind : Kind}
  {l nodes operands : List NodeId}

namespace Forest

/-- Whether a node is the top of applications to two operands each, nested from the left.  The nodes
that apply and the operands are listed from the innermost application on. -/
inductive LeftComb (f : Forest) (h : Head) : NodeId → List NodeId → List NodeId → Prop
  | pair {r x y : NodeId} (head : f.head r = h) (children : f.children r = [x, y]) :
    LeftComb f h r [r] [x, y]
  | next {r l y : NodeId} {nodes operands : List NodeId} (left : LeftComb f h l nodes operands)
    (head : f.head r = h) (children : f.children r = [l, y]) :
    LeftComb f h r (nodes ++ [r]) (operands ++ [y])

/-- Whether the value of a node is that of its operands, taken together from the left. -/
def Applies {α : Type} (f : Forest) (op : α → α → α) (value : NodeId → α) (n : NodeId) : Prop :=
  ∀ x xs, f.children n = x :: xs → value n = (xs.map value).foldl op (value x)

/-- An operator for any number of operands shows all that it holds. -/
theorem shown_of_nary {n : NodeId} (hform : (f.head n).form = .nary) :
    f.shown n = f.children n := by
  have hcapacity : (f.head n).capacity = none := by rw [Head.capacity, hform]; rfl
  rw [shown, childCount_of_capacity hcapacity, List.take_length]

theorem has_of_children_eq_cons (hchildren : f.children p = x :: l) : f.Has p := by
  refine has_of_getElem?_children (i := 0) (c := x) ?_
  rw [hchildren]
  rfl

namespace LeftComb

theorem keeps (hr : f.LeftComb h r nodes operands) (hk : f.Keeps (fun _ => True) g) :
    g.LeftComb h r nodes operands := by
  induction hr with
  | pair head children =>
    have hp := has_of_children_eq_cons children
    exact .pair ((hk.head hp trivial).trans head) ((hk.children hp trivial).trans children)
  | next _ head children ih =>
    have hp := has_of_children_eq_cons children
    exact .next ih ((hk.head hp trivial).trans head) ((hk.children hp trivial).trans children)

theorem ne_placeholder (hr : f.LeftComb h r nodes operands) (hf : f.Linked) :
    r ≠ .placeholder := by
  cases hr with
  | pair _ children | next _ _ children =>
    exact hf.ne_placeholder_of_mem_children (children ▸ List.mem_cons_self)

theorem exists_operands (hr : f.LeftComb h r nodes operands) :
    ∃ x y ys, operands = x :: y :: ys := by
  induction hr with
  | pair => exact ⟨_, _, [], rfl⟩
  | @next _ _ z _ _ _ _ _ ih =>
    obtain ⟨x, y, ys, rfl⟩ := ih
    exact ⟨x, y, ys ++ [z], rfl⟩

/-- The value of the nest is that of all operands, taken together from the left. -/
theorem value {α : Type} {op : α → α → α} {v : NodeId → α} (hr : f.LeftComb h r nodes operands)
    (hv : ∀ m ∈ nodes, f.Applies op v m) {xs : List NodeId} (hx : operands = x :: xs) :
    v r = (xs.map v).foldl op (v x) := by
  induction hr generalizing x xs with
  | @pair r a b _ children =>
    cases hx
    exact hv r (List.mem_singleton_self r) _ _ children
  | @next r l z nodes operands left _ children ih =>
    obtain ⟨a, b, bs, rfl⟩ := left.exists_operands
    obtain ⟨rfl, rfl⟩ : a = x ∧ b :: bs ++ [z] = xs := List.cons.inj hx
    have htop : v r = op (v l) (v z) :=
      hv r (List.mem_append_right _ (List.mem_singleton_self r)) _ _ children
    have hleft : v l = ((b :: bs).map v).foldl op (v a) :=
      ih (fun m hm => hv m (List.mem_append_left _ hm)) rfl
    rw [htop, hleft, List.map_append, List.foldl_append]
    rfl

/-- The expression of the nest. -/
theorem tree (hr : f.LeftComb h r nodes operands) (hf : f.Linked) {ys : List NodeId}
    (hoperands : operands = x :: y :: ys) : f.tree r
      = (ys.map f.tree).foldl (fun left t => .node h [left, t]) (.node h [f.tree x, f.tree y]) := by
  induction hr generalizing x y ys with
  | pair head children =>
    cases hoperands
    rw [hf.tree_eq (has_of_children_eq_cons children), head, children]
    rfl
  | @next r l z nodes operands left head children ih =>
    obtain ⟨a, b, bs, rfl⟩ := left.exists_operands
    obtain ⟨rfl, rfl, rfl⟩ : a = x ∧ b = y ∧ bs ++ [z] = ys := by
      simpa only [List.cons_append, List.cons.injEq] using hoperands
    rw [hf.tree_eq (has_of_children_eq_cons children), head, children, List.map_append,
      List.foldl_append, ← ih rfl]
    rfl

end LeftComb

/-! ### The loop -/

/-- New nodes were made in which the operands that some nodes stand for are nested from the left. -/
structure Nested (S : NodeId → Prop) (e f : Forest) (h : Head) (l : List NodeId) (r : NodeId)
    (nodes operands : List NodeId) : Prop where
  moves : e.Moves S f
  keeps : e.Keeps (fun _ => True) f
  within : f.Within S r
  free : f.parent r = none
  comb : f.LeftComb h r nodes operands
  stand : List.Forall₂ (e.StandsFor f) l operands

end Forest

namespace Edit

/-- An operator is applied to a node that nothing holds and to a copy of another. -/
theorem combine_spec (hf : f.Ready S) (hallows : Form.nary.allows kind) (hr : f.Within S r)
    (hfree : f.parent r = none) (hx : f.Has x) :
    ∃ p g c, (combine kind r x).run f = (.ok p, g) ∧
      f.Made S g p (.blank .nary kind) [r, c] ∧ f.StandsFor g x c := by
  have hseed : (Seed.ofForm .nary kind).head? = .ok (.blank .nary kind) := by
    rw [Seed.head?, if_pos hallows]
  have hop : (Head.blank .nary kind).IsOperator := .inl (Head.form_blank _ _)
  have hroom (l : List NodeId) (k : Nat) (hk : (Head.blank .nary kind).capacity = some k) :
      l.length < k := by
    rw [Head.capacity, Head.form_blank] at hk
    cases hk
  have hplant := made_plant (S := S) (f := f) hseed
  have hfree' : (f.grow { head := .blank .nary kind }).2.parent r = none := by
    rw [parent_plant, hfree]
  obtain ⟨g₁, hrun₁, hmade₁, -⟩ := hplant.append hf hop (hroom _) (hr.moves hplant.moves) hfree'
    (ne_next_of_has hr.1)
  obtain ⟨c, g₂, hrun₂, hmade₂, hstands, -⟩ := hmade₁.appendCopy hf hop (hroom _) hx
  refine ⟨f.next, g₂, c, ?_, hmade₂, hstands⟩
  rw [combine, run_bind, run_plant hseed]
  dsimp only
  rw [run_bind, hrun₁]
  dsimp only
  rw [← bind_assoc, run_bind, hrun₂]
  rfl

/-- One more operand is nested. -/
theorem nest_combine (he : e.Ready S) (hallows : Form.nary.allows kind)
    (hn : e.Nested S f (.blank .nary kind) l r nodes operands) (hx : e.Has x) :
    ∃ p g nodes' operands', (combine kind r x).run f = (.ok p, g) ∧
      e.Nested S g (.blank .nary kind) (l ++ [x]) p nodes' operands' := by
  have hf := he.moves hn.moves
  obtain ⟨p, g, c, hrun, hmade, hc⟩ := combine_spec hf hallows hn.within hn.free (hn.keeps.has hx)
  have hg := hf.moves hmade.moves
  have hearlier : e.StandsFor g x c :=
    hc.earlier (hn.keeps.tree_of_has he.linked hf.linked hx)
  have hlater {x y : NodeId} (hy : e.StandsFor f x y) : e.StandsFor g x y :=
    hy.later (hmade.keeps.has hy.has) (hmade.keeps.tree_of_has hf.linked hg.linked hy.has)
  refine ⟨p, g, _, _, hrun, hn.moves.trans hmade.moves, hn.keeps.trans hmade.keeps,
    ⟨hmade.has, hf.region.fresh hmade.fresh⟩, hmade.free,
    (hn.comb.keeps hmade.keeps).next hmade.head hmade.children, ?_⟩
  exact List.rel_append (hn.stand.imp fun _ _ => hlater) (.cons hearlier .nil)

/-- All operands are nested. -/
theorem nest_foldlM (he : e.Ready S) (hallows : Form.nary.allows kind)
    (hn : e.Nested S f (.blank .nary kind) l r nodes operands) {xs : List NodeId}
    (hxs : ∀ x ∈ xs, e.Has x) :
    ∃ p g nodes' operands', (xs.foldlM (combine kind) r).run f = (.ok p, g) ∧
      e.Nested S g (.blank .nary kind) (l ++ xs) p nodes' operands' := by
  induction xs generalizing f l r nodes operands with
  | nil => exact ⟨r, f, nodes, operands, rfl, by rwa [List.append_nil]⟩
  | cons x xs ih =>
    obtain ⟨p, g, nodes', operands', hrun, hn'⟩ := nest_combine he hallows hn
      (hxs x List.mem_cons_self)
    obtain ⟨q, g', nodes'', operands'', hrun', hn''⟩ :=
      ih hn' fun x hx => hxs x (List.mem_cons_of_mem _ hx)
    refine ⟨q, g', nodes'', operands'', ?_, by rwa [List.append_assoc] at hn''⟩
    rw [List.foldlM_cons, run_bind, hrun]
    exact hrun'

/-- Of three operands or more, the first two are put below a new operator, and the others are nested. -/
theorem leftComb_spec (he : e.Ready S) {n : NodeId} (hform : (e.head n).form = .nary)
    (hallows : Form.nary.allows (e.kind n)) (hlength : 3 ≤ (e.children n).length) :
    ∃ r g nodes operands, (leftComb n).run e = (.ok r, g) ∧
      e.Nested S g (.blank .nary (e.kind n)) (e.children n) r nodes operands := by
  have hshown := shown_of_nary hform
  have hhas (x : NodeId) (hx : x ∈ e.children n) : e.Has x := he.linked.has_of_mem hx
  match hchildren : e.children n, hlength with
  | x :: y :: z :: zs, _ =>
    rw [hchildren] at hshown hhas
    have hpair (m : NodeId) (hm : m ∈ [x, y]) : e.Has m :=
      hhas m (List.mem_append_left (z :: zs) hm)
    have hrest (m : NodeId) (hm : m ∈ z :: zs) : e.Has m :=
      hhas m (List.mem_append_right [x, y] hm)
    obtain ⟨p, f, copies, hrun, hmade, hcopies⟩ :=
      compound_spec he hallows (.inl rfl) (fun _ hk => by cases hk) hpair
    obtain ⟨a, b, rfl⟩ : ∃ a b, copies = [a, b] := List.length_eq_two.1 hcopies.length_eq.symm
    have hn : e.Nested S f (.blank .nary (e.kind n)) [x, y] p [p] [a, b] :=
      ⟨hmade.moves, hmade.keeps, ⟨hmade.has, he.region.fresh hmade.fresh⟩, hmade.free,
        .pair hmade.head hmade.children, hcopies⟩
    obtain ⟨r, g, nodes, operands, hrun', hn'⟩ := nest_foldlM he hallows hn hrest
    refine ⟨r, g, nodes, operands, ?_, hn'⟩
    simp only [leftComb, run_bind, run_get, hform, ne_eq, not_true_eq_false, if_false, hshown,
      hrun, hrun']

theorem run_leftComb_of_form_ne {n : NodeId} (hform : (f.head n).form ≠ .nary) :
    (leftComb n).run f = (.error (.unsupported .leftComb (f.kind n)), f) := by
  simp only [leftComb, run_bind, run_get, if_pos hform, run_throw]

theorem run_leftComb_of_length {n : NodeId} (hform : (f.head n).form = .nary)
    (hlength : (f.children n).length ≤ 2) : (leftComb n).run f = (copy n).run f := by
  have hshown := shown_of_nary hform
  match hchildren : f.children n, hlength with
  | [], _ | [_], _ | [_, _], _ =>
    rw [hchildren] at hshown
    simp only [leftComb, run_bind, run_get, hform, ne_eq, not_true_eq_false, if_false, hshown]

end Edit

end MathTree

import MathTree.Proofs.Action.Kinds
import MathTree.Proofs.Action.Placeholder
import MathTree.Proofs.Edit.LeftComb

/-!
# Operators reduced to two operands

An operator with any number of operands can be reduced to applications to two operands each.  This
never fails, and it leaves alone all that was there (`Forest.Reduced`).  The result has the value that
the operands have together, in order (`Reachable.leftComb_reduces`).
-/

namespace MathTree

open Forest

variable {f g : Forest} {m n r : NodeId} {nodes operands : List NodeId}

namespace Forest

/-- Whether a node stands at the top of a new tree in which the operands of another node are nested from
the left, two in each application, or of a copy if that node has two operands or fewer.  In either
case whatever gives each node that applies the operator the value of its operands, taken together from
the left, gives the top the value of all operands. -/
structure Reduced (f g : Forest) (n r : NodeId) (nodes operands : List NodeId) : Prop where
  untouched : ∀ m, f.Has m → g.Has m ∧ g.get m = f.get m
  has : g.Has r
  free : g.parent r = none
  fresh : r ≠ .placeholder ∧ ∀ m ∈ g.members r, ¬ f.Has m
  stand : List.Forall₂ (f.StandsFor g) (f.children n) operands
  comb : 3 ≤ (f.children n).length → g.LeftComb (.blank .nary (f.kind n)) r nodes operands
  copy : (f.children n).length ≤ 2 →
    nodes = [r] ∧ g.children r = operands ∧ g.tree r = f.tree n
  value : ∀ {α : Type} (op : α → α → α) (v w : NodeId → α), (∀ m ∈ nodes, g.Applies op v m) →
    List.Forall₂ (fun x y => v y = w x) (f.children n) operands →
    ∀ x xs, f.children n = x :: xs → v r = (xs.map w).foldl op (w x)

theorem Reduced.keeps (hr : f.Reduced g n r nodes operands) : f.Keeps (fun _ => True) g where
  has hm := (hr.untouched _ hm).1
  children hm _ := by rw [children, (hr.untouched _ hm).2, children]
  head hm _ := by rw [head, (hr.untouched _ hm).2, head]

/-- With the operands given the values of those that they stand for, all have the same value
together. -/
theorem foldl_of_forall₂ {α : Type} (op : α → α → α) {v w : NodeId → α} {x : NodeId}
    {xs : List NodeId} (hvw : List.Forall₂ (fun x y => v y = w x) (x :: xs) operands) :
    ∃ y ys, operands = y :: ys ∧ (ys.map v).foldl op (v y) = (xs.map w).foldl op (w x) := by
  obtain ⟨y, ys, hy, hys, rfl⟩ := List.forall₂_cons_left_iff.1 hvw
  refine ⟨y, ys, rfl, ?_⟩
  have hmap : ys.map v = xs.map w := by
    rw [← List.forall₂_eq_eq_eq, List.forall₂_map_left_iff, List.forall₂_map_right_iff]
    exact hys.flip
  rw [hy, hmap]

section

variable (hf : f.Linked)
include hf

theorem Linked.untouched_of_moves_new (hm : f.Moves f.New g)
    (m : NodeId) (hm' : f.Has m) : g.Has m ∧ g.get m = f.get m :=
  ⟨hm.has hm', hf.get_of_moves_new hm hm'⟩

/-- Three operands or more are nested. -/
theorem Nested.reduced
    (hr : f.Nested f.New g (.blank .nary (f.kind n)) (f.children n)
      r nodes operands) (hlength : 3 ≤ (f.children n).length) :
    f.Reduced g n r nodes operands := by
  have hready := hf.ready_new
  have hne := hr.comb.ne_placeholder (hready.moves hr.moves).linked
  exact {
    untouched := hf.untouched_of_moves_new hr.moves
    has := hr.within.1
    free := hr.free
    fresh := ⟨hne, hf.fresh_of_moves_new hr.moves (hr.within.2.resolve_left hne)⟩
    stand := hr.stand
    comb := fun _ => hr.comb
    copy := fun hle => by omega
    value := fun op v w hv hvw x xs hx => by
      rw [hx] at hvw
      obtain ⟨y, ys, hoperands, hvalue⟩ := foldl_of_forall₂ op hvw
      rw [hr.comb.value hv hoperands, hvalue] }

/-- With two operands or fewer, the operator is copied. -/
theorem CopiedTo.reduced (hr : f.CopiedTo f.New g n r)
    (hne : n ≠ .placeholder) (hlength : ¬ 3 ≤ (f.children n).length) :
    f.Reduced g n r [r] (g.children r) := by
  have hready := hf.ready_new
  have hg := (hready.moves hr.moves).linked
  have hne' : r ≠ .placeholder := fun hph => hne (hr.mirrors.eq_placeholder_iff.1 hph)
  have hhas : ∀ x ∈ f.children n, f.Has x := fun x hx => hf.has_of_mem hx
  exact {
    untouched := hf.untouched_of_moves_new hr.moves
    has := hr.replica.has
    free := hr.mirrors.parent_eq_none hg
    fresh := ⟨hne', hf.fresh_of_moves_new hr.moves (hr.fresh hne')⟩
    stand := ((List.forall₂_and_left _ _).2 ⟨hhas, hr.children⟩).imp fun x y hxy =>
      ⟨hxy.2.has, hxy.2.tree, hxy.2.eq_placeholder_iff hf hg hxy.1⟩
    comb := fun hge => absurd hge hlength
    copy := fun _ => ⟨rfl, rfl, hr.replica.tree⟩
    value := fun op v w hv hvw x xs hx => by
      rw [hx] at hvw
      obtain ⟨y, ys, hoperands, hvalue⟩ := foldl_of_forall₂ op hvw
      rw [hv r (List.mem_singleton_self r) y ys hoperands, hvalue] }

end

theorem Reachable.exists_reduced (hf : f.Reachable) (hn : f.Has n)
    (hform : (f.head n).form = .nary) : ∃ r g nodes operands,
      (Edit.leftComb n).run f = (.ok r, g) ∧ f.Reduced g n r nodes operands := by
  have h := hf.linked
  have hready := h.ready_new
  by_cases hlength : 3 ≤ (f.children n).length
  · have hallows : Form.nary.allows (f.kind n) := hform ▸ hf.sound n
    obtain ⟨r, g, nodes, operands, hrun, hr⟩ := Edit.leftComb_spec hready hform hallows hlength
    exact ⟨r, g, nodes, operands, hrun, hr.reduced h hlength⟩
  · have hne : n ≠ .placeholder := by
      rintro rfl
      rw [h.head_placeholder] at hform
      exact absurd hform (by decide)
    obtain ⟨r, g, hrun, hr⟩ := Edit.copy_spec hready hn
    rw [← Edit.run_leftComb_of_length hform (by omega)] at hrun
    exact ⟨r, g, [r], g.children r, hrun, hr.reduced h hne hlength⟩

/-- An operator for any number of operands can be reduced to applications to two operands each.  Any
other node refuses. -/
theorem Reachable.leftComb_reduces (hf : f.Reachable) (hn : f.Has n) :
    ((f.head n).form = .nary → ∃ r g nodes operands,
      (Edit.leftComb n).run f = (.ok r, g) ∧ f.Reduced g n r nodes operands) ∧
    ((f.head n).form ≠ .nary →
      (Edit.leftComb n).run f = (.error (.unsupported .leftComb (f.kind n)), f)) :=
  ⟨hf.exists_reduced hn, Edit.run_leftComb_of_form_ne⟩

/-- A sum of a name, the placeholder and a number, node one, is reduced.  The name refuses. -/
theorem leftComb_reduces_sum :
    let f := start.run [.plant (.ofKind .plus), .plant (.identifier "x"), .plant (.integer 2),
      .append ⟨1⟩ ⟨2⟩, .append ⟨1⟩ .placeholder, .append ⟨1⟩ ⟨3⟩]
    let run := (Edit.leftComb ⟨1⟩).run f
    (f.Reachable ∧ f.Has ⟨1⟩ ∧ f.Has ⟨2⟩) ∧
      run.1 = .ok ⟨6⟩ ∧ (∃ nodes operands, f.Reduced run.2 ⟨1⟩ ⟨6⟩ nodes operands) ∧
      ((Edit.leftComb ⟨2⟩).run f).1 = .error (.unsupported .leftComb .name) := by
  intro f run
  have hf : f.Reachable := Reachable.start.run (by decide +kernel)
  have hn : f.Has ⟨1⟩ := by decide +kernel
  have hn' : f.Has ⟨2⟩ := by decide +kernel
  obtain ⟨r, g, nodes, operands, hrun, hr⟩ := (hf.leftComb_reduces hn).1 (by decide +kernel)
  have hname := (hf.leftComb_reduces hn').2 (by decide +kernel)
  have hok : run.1 = .ok ⟨6⟩ := by decide +kernel
  have hrun' : run = (.ok r, g) := hrun
  rw [hrun'] at hok ⊢
  cases hok
  refine ⟨⟨hf, hn, hn'⟩, rfl, ⟨nodes, operands, hr⟩, ?_⟩
  rw [hname]
  rfl

end Forest

end MathTree

import MathTree.Proofs.Render.Canonical
import MathTree.Proofs.Substitution.Simultaneous
import Mathlib.Algebra.Order.BigOperators.Group.List
import Mathlib.Algebra.Order.Group.Nat

/-!
# Arguments that the substitution changes

A substitution copies its argument anew for every identifier, while it edits the tree that the argument
may belong to.  So it matters if an identifier stands below the argument: once that is exchanged, the
argument has grown, and all later copies with it (`Exchanges.exists_size_lt`).  This alone makes a
difference.  A substitution comes to the same as one of a copy of its argument that was made before just
if no identifier but the last stands below the argument (`Reachable.substitute_same_iff`).
-/

namespace MathTree

open Forest

variable {S : NodeId → Prop} {e f g : Forest} {a n m p c d : NodeId} {name : String}
  {cs : List NodeId} {σ : NodeId → NodeId}

/-! ### Sizes -/

namespace Rose

variable {α β : Type}

/-- The number of labels. -/
def size (t : Rose α) : Nat := t.toList.length

theorem size_node (a : α) (ts : List (Rose α)) : size (.node a ts) = (ts.map size).sum + 1 := by
  rw [size, toList_node, List.length_cons, List.length_flatten, List.map_map]
  rfl

theorem size_pos (t : Rose α) : 0 < t.size := by
  obtain ⟨a, ts⟩ := t
  rw [size_node]
  exact Nat.succ_pos _

theorem size_map (F : α → β) (t : Rose α) : (t.map F).size = t.size := by
  induction t using Rose.induction with
  | node a ts ih =>
    rw [map_node, size_node, size_node, List.map_map]
    exact congrArg (·.sum + 1) (List.map_congr_left ih)

end Rose

theorem Tree.size_eq_of_same {t u : Tree} (h : t.same u) : t.size = u.size := by
  have hcanonical : t.canonical.size = u.canonical.size := congrArg Rose.size (same_iff.1 h)
  exact (Rose.size_map _ t).symm.trans (hcanonical.trans (Rose.size_map _ u))

theorem sum_map_lt_of_mem {l : List NodeId} {w w' : NodeId → Nat} (hle : ∀ m, w m ≤ w' m)
    (hc : c ∈ l) (hlt : w c < w' c) : (l.map w).sum < (l.map w').sum :=
  List.sum_lt_sum w w' (fun m _ => hle m) ⟨c, hc, hlt⟩

namespace Forest

/-- What a node counts for if some were exchanged: one, but for those the size of what is in their
place. -/
def weight (g : Forest) (cs : List NodeId) (σ : NodeId → NodeId) (m : NodeId) : Nat :=
  if m ∈ cs then (g.tree (σ m)).size else 1

theorem one_le_weight (m : NodeId) : 1 ≤ g.weight cs σ m := by
  unfold weight
  split_ifs
  · exact Rose.size_pos _
  · exact Nat.le_refl 1

theorem size_tree (f : Forest) (n : NodeId) :
    (f.tree n).size = ((f.spine n).toList.map fun _ => 1).sum := by
  rw [tree, Rose.size_map, List.map_const', List.sum_replicate_nat, Nat.mul_one, Rose.size]

/-- What nodes stand below is no leaf and was not exchanged. -/
theorem Exchanged.not_mem_of_below (hx : e.Exchanged a cs σ g) (he : e.Linked) (hb : e.Below c n) :
    n ∉ cs := by
  intro hcs
  obtain ⟨m, hm, -⟩ := he.exists_child_of_below hb
  rw [(hx.leaf n hcs).2] at hm
  cases hm

section

variable (hx : e.Exchanged a cs σ g) (he : e.Linked) (hg : g.Linked) (hn : e.Has n)
include hx he hg hn

/-- What is in the place of a node has the size of all that it counts for, with all below it. -/
theorem Exchanged.size_tree :
    (g.tree (σ n)).size = ((e.spine n).toList.map (g.weight cs σ)).sum := by
  refine he.below_induction (P := fun n =>
    (g.tree (σ n)).size = ((e.spine n).toList.map (g.weight cs σ)).sum) (fun n hn ih => ?_) hn
  rw [he.spine_eq hn, Rose.toList_node, List.map_cons, List.sum_cons]
  by_cases hcs : n ∈ cs
  · rw [(hx.leaf n hcs).2, weight, if_pos hcs]
    rfl
  · have hbelow : ((g.children n).map g.tree).map Rose.size
        = (e.children n).map fun c => ((e.spine c).toList.map (g.weight cs σ)).sum := by
      rw [hx.children hn, List.map_map, List.map_map]
      exact List.map_congr_left ih
    rw [weight, if_neg hcs, hx.kept hcs, hg.tree_eq (hx.has hn), Rose.size_node, hbelow, Nat.add_comm,
      List.map_map, List.map_flatten, List.sum_flatten, List.map_map, List.map_map]
    rfl

theorem Exchanged.size_tree_of_not_mem (hcs : n ∉ cs) :
    (g.tree n).size = ((e.spine n).toList.map (g.weight cs σ)).sum := by
  rw [← hx.size_tree he hg hn, hx.kept hcs]

/-- Nothing gets smaller. -/
theorem Exchanged.size_le : (e.tree n).size ≤ (g.tree n).size := by
  by_cases hcs : n ∈ cs
  · rw [hx.tree_of_not_below he hg hn fun c _ hb => hx.not_mem_of_below he hb hcs]
  · rw [e.size_tree, hx.size_tree_of_not_mem he hg hn hcs]
    exact List.sum_le_sum fun m _ => one_le_weight m

end

/-- With a leaf below it exchanged for more than a leaf, a node has grown. -/
theorem Exchanged.size_lt (hx : e.Exchanged a cs σ g) (he : e.Linked) (hg : g.Linked) (hn : e.Has n)
    (hc : c ∈ cs) (hb : e.Below c n) (hlt : 1 < (g.tree (σ c)).size) :
    (e.tree n).size < (g.tree n).size := by
  have hcs := hx.not_mem_of_below he hb
  have hmem : c ∈ (e.spine n).toList :=
    List.mem_of_mem_filter ((he.below_iff_mem_members hn).1 hb).1
  rw [e.size_tree, hx.size_tree_of_not_mem he hg hn hcs]
  refine sum_map_lt_of_mem one_le_weight hmem ?_
  rwa [weight, if_pos hc]

/-- A node that others stand below has more than one. -/
theorem Linked.one_lt_size (hf : f.Linked) (hn : f.Has n) (hb : f.Below c n) :
    1 < (f.tree n).size := by
  obtain ⟨m, hm, -⟩ := hf.exists_child_of_below hb
  rw [hf.tree_eq hn, Rose.size_node]
  refine Nat.succ_lt_succ (Nat.lt_of_lt_of_le (f.tree m).size_pos ?_)
  exact List.le_sum_of_mem (List.mem_map_of_mem (List.mem_map_of_mem hm))

/-! ### Copies of an argument that grows -/

/-- No copy is smaller than the argument was. -/
theorem Exchanges.size_le (h : e.Exchanges S a cs σ f) :
    ∀ c ∈ cs, (e.tree a).size ≤ (f.tree (σ c)).size := by
  induction h with
  | nil => exact fun c hc => absurd hc List.not_mem_nil
  | @snoc cs σ f g p c d i h hx ih =>
    intro c' hc'
    rcases List.mem_append.1 hc' with hc' | hc'
    · rw [hx.tree_of_mem hc']
      exact ih c' hc'
    · rw [List.mem_singleton.1 hc', hx.tree_copy]
      exact hx.before.size_le hx.linked hx.ready.linked hx.argument

/-- If a leaf below the argument is exchanged before the last leaf, the copy for the last leaf is larger
than the argument was. -/
theorem Exchanges.exists_size_lt (h : e.Exchanges S a cs σ f) (hd : d ∈ cs.dropLast)
    (hb : e.Below d a) : ∃ c ∈ cs, (e.tree a).size < (f.tree (σ c)).size := by
  cases h with
  | nil => cases hd
  | @snoc cs σ f g p c d' i h hx =>
    rw [List.dropLast_concat] at hd
    refine ⟨c, List.mem_append_right _ (List.mem_singleton_self c), ?_⟩
    have hlt : 1 < (f.tree (σ d)).size :=
      Nat.lt_of_lt_of_le (hx.linked.one_lt_size hx.argument hb) (h.size_le d hd)
    rw [hx.tree_copy]
    exact hx.before.size_lt hx.linked hx.ready.linked hx.argument hd hb hlt

/-! ### Two substitutions -/

theorem Keeps.shown (hk : f.Keeps (fun _ => True) g) (hn : f.Has n) : g.shown n = f.shown n := by
  rw [Forest.shown, Forest.shown, Forest.childCount, Forest.childCount, hk.children hn trivial,
    hk.head hn trivial]

/-- Where nothing has changed, the same identifiers are found. -/
theorem Keeps.occurrences (hk : f.Keeps (fun _ => True) g) (hf : f.Linked) (hg : g.Linked)
    (hn : f.Has n) (name : String) : g.occurrences name n = f.occurrences name n := by
  refine hf.below_induction (P := fun n => g.occurrences name n = f.occurrences name n)
    (fun n hn ih => ?_) hn
  rw [hf.occurrences_eq name hn, hg.occurrences_eq name (hk.has hn), hk.shown hn]
  refine List.flatMap_congr fun c hc => ?_
  have hmem := mem_children_of_mem_shown hc
  rw [found, found, ih c hmem, Forest.kind, Forest.kind, hk.head (hf.has_of_mem hmem) trivial]

/-- Of two exchanges of the same leaves, that with the larger copies leaves the larger tree. -/
theorem Exchanged.size_lt_size {e' g' : Forest} {b : NodeId} {σ' : NodeId → NodeId}
    (hx : e.Exchanged a cs σ g) (he : e.Linked) (hg : g.Linked) (hx' : e'.Exchanged b cs σ' g')
    (he' : e'.Linked) (hg' : g'.Linked) (hn : e.Has n) (hn' : e'.Has n)
    (hspine : e'.spine n = e.spine n) (hc : c ∈ cs) (hb : e.Below c n)
    (hle : ∀ c ∈ cs, (g'.tree (σ' c)).size ≤ (g.tree (σ c)).size)
    (hlt : (g'.tree (σ' c)).size < (g.tree (σ c)).size) : (g'.tree n).size < (g.tree n).size := by
  have hcs := hx.not_mem_of_below he hb
  have hmem : c ∈ (e.spine n).toList :=
    List.mem_of_mem_filter ((he.below_iff_mem_members hn).1 hb).1
  rw [hx.size_tree_of_not_mem he hg hn hcs, hx'.size_tree_of_not_mem he' hg' hn' hcs, hspine]
  refine sum_map_lt_of_mem (fun m => ?_) hmem ?_
  · unfold weight
    split_ifs with hm
    · exact hle m hm
    · exact Nat.le_refl 1
  · rwa [weight, weight, if_pos hc, if_pos hc]

/-- A copy of the argument that was made before is not changed by the substitution. -/
theorem Linked.substitute_copied (hf : f.Linked) (hsound : f.Sound) (hn : f.Has n)
    (hc : f.CopiedTo (fun _ => True) g a c) (name : String) : ∃ σ g',
      (Edit.substitute n name c).run g = (.ok (f.occurrences name n).length, g') ∧ g'.Linked ∧
      g.Exchanged c (f.occurrences name n) σ g' ∧
      (∀ d ∈ f.occurrences name n, g'.tree (σ d) = f.tree a) ∧
      g'.tree n = (f.tree n).substitute name (f.tree a) := by
  have hg := hf.ready.moves hc.moves
  have hkeeps : f.Keeps (fun _ => True) g := hc.untouched.retains.keeps
  have hfound : g.occurrences name n = f.occurrences name n :=
    hkeeps.occurrences hf hg.linked hn name
  obtain ⟨σ, g', hrun, hx⟩ := Edit.substitute_spec hg (hsound.steps (hc.moves.steps hf.ready))
    hc.replica.has name ⟨hkeeps.has hn, trivial⟩
  have hg' := (hg.moves hx.moves).linked
  have hnames (d : NodeId) (hd : d ∈ g.occurrences name n) :=
    hg.linked.names_of_mem_occurrences (hkeeps.has hn) hd
  have hcovers := hg.linked.covers_occurrences (hkeeps.has hn) name
  rw [hfound] at hrun hx hnames hcovers
  have hcopies : ∀ d ∈ f.occurrences name n, g'.tree (σ d) = f.tree a := fun d hd => by
    refine (hx.tree_copy (fun d hd hb => ?_) d hd).trans hc.replica.tree
    -- the copy is new, and the identifiers are not
    have hu := hf.below_of_mem_occurrences hn (List.dropLast_subset _ hd)
    exact hc.not_has_of_mem_members ((hg.linked.below_iff_mem_members hc.replica.has).1 hb).1
      (hf.has_of_under hn hu.to_reflTransGen)
  refine ⟨σ, g', hrun, hg', hx.exchanged, hcopies, ?_⟩
  rw [hx.exchanged.tree_eq_substitute hg.linked hg' hnames hcopies (hkeeps.has hn) hcovers,
    hkeeps.tree_of_has hf hg.linked hn]

/-- Substituting a node never fails, nor does substituting a copy of it made before, and both find the same
number of identifiers.  The second comes to a simultaneous substitution, and the first comes to the same
just if every identifier but the last that stands in the argument is the argument. -/
theorem Reachable.substitute_same_iff (hf : f.Reachable) (hn : f.Has n) (ha : f.Has a)
    (name : String) : ∃ g b f' g',
      (Edit.substitute n name a).run f = (.ok (f.occurrences name n).length, g) ∧
      (Edit.copy a).run f = (.ok b, f') ∧
      (Edit.substitute n name b).run f' = (.ok (f.occurrences name n).length, g') ∧
      g'.tree n = (f.tree n).substitute name (f.tree a) ∧
      ((g.tree n).same (g'.tree n) ↔
        ∀ c ∈ (f.occurrences name n).dropLast, c ∈ f.members a → c = a) ∧
      ((g.tree n).same (g'.tree n) → g.tree n = g'.tree n) := by
  have h := hf.linked
  obtain ⟨σ, g, hrun, hx⟩ := Edit.substitute_spec h.ready hf.sound ha name ⟨hn, trivial⟩
  have hg := (h.ready.moves hx.moves).linked
  obtain ⟨b, f', hcopy, hb⟩ := Edit.copy_spec h.ready ha
  have hf' := (h.ready.moves hb.moves).linked
  have hkeeps : f.Keeps (fun _ => True) f' := hb.untouched.retains.keeps
  obtain ⟨σ', g', hrun', hg', hx', hcopies', htree'⟩ :=
    h.substitute_copied hf.sound hn hb name
  have hgood (hout : ∀ c ∈ (f.occurrences name n).dropLast, c ∈ f.members a → c = a) :
      g.tree n = g'.tree n := by
    have hcopies := hx.tree_copy fun c hc hba =>
      have hca := (h.below_iff_mem_members ha).1 hba
      hca.2 (hout c hc hca.1)
    rw [htree']
    exact hx.exchanged.tree_eq_substitute h hg (fun c hc => h.names_of_mem_occurrences hn hc) hcopies hn
      (h.covers_occurrences hn name)
  have hbad (hsame : (g.tree n).same (g'.tree n)) :
      ∀ c ∈ (f.occurrences name n).dropLast, c ∈ f.members a → c = a := by
    intro d hd hm
    by_contra hne
    obtain ⟨c, hc, hlt⟩ := hx.exists_size_lt hd ((h.below_iff_mem_members ha).2 ⟨hm, hne⟩)
    have hsize := hx.exchanged.size_lt_size h hg hx' hf' hg' hn (hkeeps.has hn)
      (hkeeps.spine h hf' (fun _ _ _ _ => trivial) hn trivial) hc
      (h.below_of_mem_occurrences hn hc)
      (fun c hc => (congrArg Rose.size (hcopies' c hc)).trans_le (hx.size_le c hc))
      ((congrArg Rose.size (hcopies' c hc)).trans_lt hlt)
    exact Nat.ne_of_gt hsize (Tree.size_eq_of_same hsame)
  exact ⟨g, b, f', g', hrun, hcopy, hrun', htree', ⟨hbad, fun hout => hgood hout ▸ Tree.same_iff.2 rfl⟩,
    fun hsame => hgood (hbad hsame)⟩

/-- A sum, node one, of a name and the sine of that name, node three.  The sine takes the place of the name
in the sum and in itself: the copy for the first is made before it changes. -/
theorem substitute_same_iff_operand :
    let f := start.run [.plant (.ofKind .plus), .plant (.identifier "x"),
      .plant (.ofKind (.elementary .sin)), .plant (.identifier "x"), .append ⟨3⟩ ⟨4⟩,
      .append ⟨1⟩ ⟨2⟩, .append ⟨1⟩ ⟨3⟩]
    (f.Reachable ∧ f.Has ⟨1⟩ ∧ f.Has ⟨3⟩) ∧ ⟨4⟩ ∈ f.members ⟨3⟩ ∧
      f.occurrences "x" ⟨1⟩ = [⟨2⟩, ⟨4⟩] ∧
      ∃ g, (Edit.substitute ⟨1⟩ "x" ⟨3⟩).run f = (.ok 2, g) ∧
        g.tree ⟨1⟩ = (f.tree ⟨1⟩).substitute "x" (f.tree ⟨3⟩) ∧
        (g.tree ⟨1⟩).formula {} = .ok "sin(x)+sin(sin(x))" := by
  intro f
  have hf : f.Reachable := Reachable.start.run (by decide +kernel)
  have hn : f.Has ⟨1⟩ := by decide +kernel
  have ha : f.Has ⟨3⟩ := by decide +kernel
  have hfound : f.occurrences "x" ⟨1⟩ = [⟨2⟩, ⟨4⟩] := by decide +kernel
  have hout : ∀ c ∈ (f.occurrences "x" ⟨1⟩).dropLast, c ∈ f.members ⟨3⟩ → c = ⟨3⟩ := by
    decide +kernel
  obtain ⟨g, b, f', g', hrun, -, -, htree', hiff, heq⟩ := hf.substitute_same_iff hn ha "x"
  have htree := (heq (hiff.2 hout)).trans htree'
  rw [hfound] at hrun
  refine ⟨⟨hf, hn, ha⟩, by decide +kernel, hfound, g, hrun, htree, ?_⟩
  rw [htree]
  decide +kernel

/-- A sum, node one, of a name and the same name again takes the place of both.  The copy for the second is
one of three names, and it would not be if the sum had been copied before. -/
theorem substitute_grows :
    let f := start.run [.plant (.ofKind .plus), .plant (.identifier "x"), .plant (.identifier "x"),
      .append ⟨1⟩ ⟨2⟩, .append ⟨1⟩ ⟨3⟩]
    let g := ((Edit.substitute ⟨1⟩ "x" ⟨1⟩).run f).2
    let f' := ((Edit.copy ⟨1⟩).run f).2
    let g' := ((Edit.substitute ⟨1⟩ "x" ⟨6⟩).run f').2
    f.Reachable ∧ f.Has ⟨1⟩ ∧ ((Edit.copy ⟨1⟩).run f).1 = .ok ⟨6⟩ ∧
      (g.tree ⟨1⟩).same (g'.tree ⟨1⟩) = false ∧
      (g.tree ⟨1⟩).formula {} = .ok "x+x+(x+x+x)" ∧ (g'.tree ⟨1⟩).formula {} = .ok "x+x+(x+x)" := by
  intro f g f' g'
  have hf : f.Reachable := Reachable.start.run (by decide +kernel)
  have hcopy : ((Edit.copy ⟨1⟩).run f).1 = .ok ⟨6⟩ := by decide +kernel
  exact ⟨hf, by decide +kernel, hcopy, by decide +kernel, by decide +kernel, by decide +kernel⟩

end Forest

end MathTree

import MathTree.Proofs.Substitution.Walk
import MathTree.Render.Formula

/-!
# Simultaneous substitution

On trees, a substitution is the function that puts a tree in the place of every identifier of a name
that is shown and not in a bound variable, and does not look into what it has put there
(`Tree.substitute`).  A substitution whose copies all read alike does to the tree of a node just what
that function does (`Exchanged.tree_eq_substitute`), and so does every substitution whose argument
stands in another tree (`Reachable.substitute_replaces`).
-/

namespace MathTree

open Forest

variable {S : NodeId → Prop} {e f g : Forest} {a n m p c d : NodeId} {name : String}
  {cs : List NodeId} {σ : NodeId → NodeId} {argument : Tree}

namespace Tree

/-- What takes the place of a child, if what it would become deeper is known. -/
def instead (t : Tree) (name : String) (argument deeper : Tree) : Tree :=
  if t.kind = .qualifier .bvar then t
  else if t.head.Names name then argument
  else deeper

/-- A node whose children are given with what each would become deeper.  It counts its children if one of
them was exchanged. -/
def substituteNode (name : String) (argument : Tree) (h : Head) (below : List (Tree × Tree)) : Tree :=
  let shown := below.take (h.shown below.length)
  let hidden := below.drop (h.shown below.length)
  let ts := shown.map (fun b => b.1.instead name argument b.2) ++ hidden.map (·.1)
  .node (if ∃ b ∈ shown, b.1.head.Names name then h.recounted (ts.map kind) else h) ts

/-- The tree with another in the place of every identifier of a name, as far as these are shown and not
in a bound variable. -/
def substitute (t : Tree) (name : String) (argument : Tree) : Tree :=
  t.para (substituteNode name argument)

theorem substitute_node (name : String) (argument : Tree) (h : Head) (shown hidden : List Tree)
    (hshown : h.shown (shown ++ hidden).length = shown.length) :
    substitute (.node h (shown ++ hidden)) name argument =
      let ts := shown.map (fun t => t.instead name argument (t.substitute name argument)) ++ hidden
      .node (if ∃ t ∈ shown, t.head.Names name then h.recounted (ts.map kind) else h) ts := by
  let both (t : Tree) : Tree × Tree := (t, t.substitute name argument)
  have hlength : h.shown ((shown ++ hidden).map both).length = (shown.map both).length := by
    rw [List.length_map, hshown, List.length_map]
  have hnode : substitute (.node h (shown ++ hidden)) name argument
      = substituteNode name argument h ((shown ++ hidden).map both) := Rose.para_node _ _ _
  rw [hnode, substituteNode, hlength, List.map_append, List.take_left, List.drop_left]
  simp [both, Function.comp_def]

end Tree

namespace Forest

/-! ### Leaves that are the occurrences of a name -/

/-- Whether those of some leaves that stand below a node are the occurrences of a name below it. -/
def Covers (e : Forest) (name : String) (cs : List NodeId) (n : NodeId) : Prop :=
  ∀ c, c ∈ e.occurrences name n ↔ c ∈ cs ∧ e.Below c n

namespace Linked

variable (he : e.Linked) (hn : e.Has n)
include he hn

theorem covers_occurrences (name : String) : e.Covers name (e.occurrences name n) n :=
  fun _ => ⟨fun hc => ⟨hc, he.below_of_mem_occurrences hn hc⟩, And.left⟩

/-- What stands under a child is found there, and then the child is shown. -/
theorem mem_found_of_under (hc : c ∈ e.occurrences name n) (hm : m ∈ e.children n)
    (hne : m ≠ .placeholder) (hu : e.Under c m) :
    m ∈ e.shown n ∧ c ∈ e.found name m (e.occurrences name m) := by
  obtain ⟨d, hd, hcd⟩ := (he.mem_occurrences hn).1 hc
  have hmem := mem_children_of_mem_shown hd
  have hud := he.under_of_mem_found (he.has_of_mem hmem) hcd
  cases he.eq_of_under hm hmem hne (he.ne_placeholder_of_mem_found hcd) hu hud
  exact ⟨hd, hcd⟩

end Linked

section

variable (hcovers : e.Covers name cs n) (he : e.Linked) (hn : e.Has n)
include hcovers he hn

theorem Covers.mem_found (hm : m ∈ e.children n) (hne : m ≠ .placeholder) (hc : c ∈ cs)
    (hu : e.Under c m) : m ∈ e.shown n ∧ c ∈ e.found name m (e.occurrences name m) :=
  he.mem_found_of_under hn ((hcovers c).2 ⟨hc, he.below_of_under hu hm hne⟩) hm hne hu

theorem Covers.mem_found_of_below (hm : m ∈ e.children n) (hc : c ∈ cs) (hb : e.Below c m) :
    m ∈ e.shown n ∧ c ∈ e.found name m (e.occurrences name m) :=
  hcovers.mem_found he hn hm (he.ne_placeholder_of_below hb).2 hc hb.to_reflTransGen

/-- Where the walk goes deeper, the leaves are the occurrences still. -/
theorem Covers.child (hm : m ∈ e.shown n) (hbound : e.kind m ≠ .qualifier .bvar)
    (hnames : ¬ (e.head m).Names name) : e.Covers name cs m := by
  have hmem := mem_children_of_mem_shown hm
  have hfound : e.found name m (e.occurrences name m) = e.occurrences name m := by
    rw [found, if_neg hbound, if_neg hnames]
  intro c
  constructor
  · intro hc
    have hc' : c ∈ e.occurrences name n := (he.mem_occurrences hn).2 ⟨m, hm, by rwa [hfound]⟩
    exact ⟨((hcovers c).1 hc').1, he.below_of_mem_occurrences (he.has_of_mem hmem) hc⟩
  · rintro ⟨hc, hb⟩
    have hdeep := (hcovers.mem_found_of_below he hn hmem hc hb).2
    rwa [hfound] at hdeep

end

/-! ### What comes of the trees -/

/-- No child but the placeholder is both shown and hidden. -/
theorem Linked.not_mem_shown_of_mem_hidden (he : e.Linked) (hm : m ∈ e.hidden n)
    (hne : m ≠ .placeholder) : m ∉ e.shown n := by
  intro hm'
  have hpairs := he.pairwise_children n
  rw [← e.shown_append_hidden n, List.pairwise_append] at hpairs
  exact hpairs.2.2 m hm' m hm hne hne rfl

section

variable (hx : e.Exchanged a cs σ g) (he : e.Linked) (hg : g.Linked)
  (hnames : ∀ c ∈ cs, (e.head c).Names name) (hcopies : ∀ c ∈ cs, g.tree (σ c) = argument)
include hx he hg hnames hcopies

theorem Exchanged.tree_of_mem_shown (hn : e.Has n) (hcovers : e.Covers name cs n)
    (hm : m ∈ e.shown n) (hdeeper : e.Covers name cs m →
      g.tree m = (e.tree m).substitute name argument) :
    g.tree (σ m) = (e.tree m).instead name argument ((e.tree m).substitute name argument) := by
  have hmem := mem_children_of_mem_shown hm
  have hhas := he.has_of_mem hmem
  have hkind : (e.tree m).kind = e.kind m := by rw [Tree.kind, head_tree, Forest.kind]
  rw [Tree.instead, hkind, head_tree]
  have hcs (h : ¬ (e.head m).Names name) : m ∉ cs := fun hc => h (hnames m hc)
  split_ifs with hbound hname
  · have hother : ¬ (e.head m).Names name := fun h => by
      cases hbound.symm.trans h.1
    rw [hx.kept (hcs hother)]
    refine hx.tree_of_not_below he hg hhas fun c hc hb => ?_
    exact (mem_found_iff.1 (hcovers.mem_found_of_below he hn hmem hc hb).2).1 hbound
  · exact hcopies m ((hcovers m).1 (he.mem_occurrences_of_names hn hm hname)).1
  · rw [hx.kept (hcs hname)]
    exact hdeeper (hcovers.child he hn hm hbound hname)

omit hnames hcopies in
theorem Exchanged.tree_of_mem_hidden (hn : e.Has n) (hcovers : e.Covers name cs n)
    (hm : m ∈ e.hidden n) : g.tree (σ m) = e.tree m := by
  have hmem : m ∈ e.children n := List.mem_of_mem_drop hm
  have hcs : m ∉ cs := fun hc => by
    have hne := (hx.leaf m hc).1
    exact he.not_mem_shown_of_mem_hidden hm hne (hcovers.mem_found he hn hmem hne hc .refl).1
  rw [hx.kept hcs]
  refine hx.tree_of_not_below he hg (he.has_of_mem hmem) fun c hc hb => ?_
  exact he.not_mem_shown_of_mem_hidden hm (he.ne_placeholder_of_below hb).2
    (hcovers.mem_found_of_below he hn hmem hc hb).1

omit hg hcopies in
/-- A node counts its children if one of them was shown and had the name. -/
theorem Exchanged.head_eq_of_covers (hn : e.Has n) (hcovers : e.Covers name cs n) : g.head n
    = if ∃ t ∈ (e.shown n).map e.tree, t.head.Names name then
        (e.head n).recounted (((g.children n).map g.tree).map Tree.kind)
      else e.head n := by
  have hkinds : ((g.children n).map g.tree).map Tree.kind = (g.children n).map g.kind := by
    rw [List.map_map]
    refine List.map_congr_left fun m hm => ?_
    rw [Function.comp_apply, Tree.kind, head_tree, Forest.kind]
  rw [hx.head hn, hkinds]
  refine if_congr ⟨?_, ?_⟩ rfl rfl
  · rintro ⟨c, hc, hp⟩
    have hshown := (hcovers.mem_found he hn (he.mem_of_parent hp) (hx.leaf c hc).1 hc .refl).1
    refine ⟨e.tree c, List.mem_map_of_mem hshown, ?_⟩
    rw [head_tree]
    exact hnames c hc
  · rintro ⟨t, ht, hname⟩
    obtain ⟨m, hm, rfl⟩ := List.mem_map.1 ht
    have hmem := mem_children_of_mem_shown hm
    rw [head_tree] at hname
    have hcs := ((hcovers m).1 (he.mem_occurrences_of_names hn hm hname)).1
    exact ⟨m, hcs, (he.parent_iff (hx.leaf m hcs).1).2 hmem⟩

theorem Exchanged.tree_eq_substitute (hn : e.Has n) (hcovers : e.Covers name cs n) :
    g.tree n = (e.tree n).substitute name argument := by
  refine he.below_induction (P := fun n => e.Covers name cs n →
    g.tree n = (e.tree n).substitute name argument) (fun n hn ih hcovers => ?_) hn hcovers
  have hlist : (g.children n).map g.tree
      = ((e.shown n).map e.tree).map
          (fun t => t.instead name argument (t.substitute name argument))
        ++ (e.hidden n).map e.tree := by
    rw [hx.children hn, ← e.shown_append_hidden n, List.map_append, List.map_append, List.map_map,
      List.map_map, List.map_map]
    congr 1
    · exact List.map_congr_left fun m hm => hx.tree_of_mem_shown he hg hnames hcopies hn hcovers hm
        (ih m (mem_children_of_mem_shown hm))
    · exact List.map_congr_left fun m hm => hx.tree_of_mem_hidden he hg hn hcovers hm
  have hcount : (e.head n).shown ((e.shown n).map e.tree ++ (e.hidden n).map e.tree).length
      = ((e.shown n).map e.tree).length := by
    rw [← List.map_append, e.shown_append_hidden, List.length_map, List.length_map, length_shown,
      Forest.childCount]
  rw [hg.tree_eq (hx.has hn), hx.head_eq_of_covers he hnames hn hcovers, hlist, he.tree_eq hn]
  conv_rhs => rw [← e.shown_append_hidden n, List.map_append, Tree.substitute_node _ _ _ _ _ hcount]

end

/-! ### Arguments from other trees -/

/-- There is a region to work in that holds a node and no node of another tree, but the placeholder. -/
theorem Linked.exists_region (hf : f.Linked) (ha : f.Has a) (hroot : f.root a ≠ f.root n) :
    ∃ S, f.Region S ∧ S n ∧ ∀ m, f.root m = f.root a → ¬ S m ∨ m = .placeholder := by
  by_cases hph : a = .placeholder
  · refine ⟨fun _ => True, f.region_univ, trivial, fun m hm => .inr ?_⟩
    by_contra hne
    refine hf.root_ne_placeholder hne ?_
    rw [hm, hph, root_of_parent_none hf.parent_placeholder]
  · exact ⟨_, hf.region_root_ne ha hph, hroot.symm, fun m hm => .inl (not_not.2 hm)⟩

/-- Substituting a node of another tree never fails.  It exchanges the identifiers of the name that are
exposed below the node, all at once as it were, each for a copy of its own, and names their number.
Nothing else changes, and nothing at all in the tree of the argument. -/
theorem Reachable.substitute_replaces (hf : f.Reachable) (hn : f.Has n) (ha : f.Has a)
    (hroot : f.root a ≠ f.root n) (name : String) :
    ∃ σ g, (Edit.substitute n name a).run f = (.ok (f.occurrences name n).length, g) ∧
      ((f.occurrences name n).Nodup ∧
        ∀ c, c ∈ f.occurrences name n ↔ (f.head c).Names name ∧ f.Exposes n c) ∧
      g.tree n = (f.tree n).substitute name (f.tree a) ∧
      f.Exchanged a (f.occurrences name n) σ g ∧
      (∀ c ∈ f.occurrences name n, g.tree (σ c) = f.tree a) ∧
      (∀ m, f.root m = f.root a → g.get m = f.get m) ∧ g.tree a = f.tree a := by
  have h := hf.linked
  obtain ⟨S, hS, hSn, houtside⟩ := h.exists_region ha hroot
  have hready : f.Ready S := ⟨h, hS⟩
  obtain ⟨σ, g, hrun, hx⟩ := Edit.substitute_spec hready hf.sound ha name ⟨hn, hSn⟩
  have hg := (hready.moves hx.moves).linked
  -- what stands below both nodes would have both roots
  have hapart : ∀ c ∈ f.occurrences name n, ¬ f.Below c a := fun c hc hb =>
    hroot ((h.root_of_under hb.to_reflTransGen).symm.trans
      (h.root_of_under (h.below_of_mem_occurrences hn hc).to_reflTransGen))
  have hcopies := hx.tree_copy fun c hc => hapart c (List.dropLast_subset _ hc)
  refine ⟨σ, g, hrun, ⟨h.nodup_occurrences name hn, fun c => h.mem_occurrences_iff hf.sound hn⟩,
    hx.exchanged.tree_eq_substitute h hg (fun c hc => h.names_of_mem_occurrences hn hc) hcopies hn
      (h.covers_occurrences hn name),
    hx.exchanged, hcopies, fun m hm => ?_, hx.exchanged.tree_of_not_below h hg ha hapart⟩
  rcases houtside m hm with hout | rfl
  · exact ((hx.moves.steps hready).confined hS).get hout
  · rw [hg.placeholder, h.placeholder]

/-- A sum, node one, of a name and a function of a parameter of that name, and the sine of the name, node
seven, which takes the place of the name in the sum and in the body of the function. -/
theorem substitute_replaces_parameter :
    let f := start.run [.plant (.ofKind .plus), .plant (.identifier "x"), .plant (.ofKind .lambda),
      .plant (.identifier "x"), .addBound ⟨3⟩ ⟨4⟩, .plant (.identifier "x"), .setBody ⟨3⟩ ⟨6⟩,
      .plant (.ofKind (.elementary .sin)), .plant (.identifier "x"), .append ⟨7⟩ ⟨8⟩,
      .append ⟨1⟩ ⟨2⟩, .append ⟨1⟩ ⟨3⟩]
    (f.Reachable ∧ f.Has ⟨1⟩ ∧ f.Has ⟨7⟩ ∧ f.root ⟨7⟩ ≠ f.root ⟨1⟩) ∧
      f.occurrences "x" ⟨1⟩ = [⟨2⟩, ⟨6⟩] ∧
      ∃ σ g, (Edit.substitute ⟨1⟩ "x" ⟨7⟩).run f = (.ok 2, g) ∧
        f.Exchanged ⟨7⟩ [⟨2⟩, ⟨6⟩] σ g ∧
        (g.tree ⟨1⟩).formula {} = .ok "sin(x)+lambda(x, sin(x))" := by
  intro f
  have hf : f.Reachable := Reachable.start.run (by decide +kernel)
  have hn : f.Has ⟨1⟩ := by decide +kernel
  have ha : f.Has ⟨7⟩ := by decide +kernel
  have hroot : f.root ⟨7⟩ ≠ f.root ⟨1⟩ := by decide +kernel
  have hfound : f.occurrences "x" ⟨1⟩ = [⟨2⟩, ⟨6⟩] := by decide +kernel
  obtain ⟨σ, g, hrun, -, htree, hx, -⟩ := hf.substitute_replaces hn ha hroot "x"
  rw [hfound] at hrun hx
  refine ⟨⟨hf, hn, ha, hroot⟩, hfound, σ, g, hrun, hx, ?_⟩
  rw [htree]
  decide +kernel

end Forest

end MathTree

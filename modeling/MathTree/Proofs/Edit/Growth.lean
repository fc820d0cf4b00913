import MathTree.Proofs.Edit.Compound
import MathTree.Proofs.Forest.Hushed

/-!
# Growth

What is made of copies grows beside all that was there.  Only new nodes are moved, of which nobody
hears, so that no node that was there is touched and no notice is given (`Linked.untouched_of_new`).
`Forest.Grown` says of a node that it came about in this way, that nothing holds it, and what its
expression is.  Copies and fresh nodes are grown, and so are nodes of which grown ones are put below
others (`Grown.attach`, `Grown.wrap`, `Grown.wrapPair`).
-/

namespace MathTree

open Forest

variable {e f g : Forest} {n p c d v : NodeId} {h : Head} {t u : Tree} {ts : List Tree}
  {q : Qualifier}

/-- A node above some trees, of which it counts those that it has to count. -/
def Tree.counted (h : Head) (ts : List Tree) : Tree := .node (h.recounted (ts.map Tree.kind)) ts

/-- A qualifier around some trees. -/
def Tree.qualified (q : Qualifier) (ts : List Tree) : Tree :=
  .node (.blank .qualifier (.qualifier q)) ts

theorem Tree.counted_qualifier (q : Qualifier) (ts : List Tree) :
    counted (.blank .qualifier (.qualifier q)) ts = qualified q ts := rfl

namespace Forest

/-! ### New nodes -/

theorem Linked.listeners_of_new (hf : f.Linked) (hn : f.New n) : f.listeners n = [] := by
  rcases hn with rfl | hn
  · exact hf.listeners_placeholder
  · exact listeners_of_not_has hn

/-- Moves among new nodes touch none that was there, and nobody hears of them. -/
theorem Linked.untouched_of_new (hf : f.Linked) (hm : f.Moves f.New g) : f.Untouched g := by
  have hhushed := (hm.steps hf.ready_new).hushed hf.region_new fun _ => hf.listeners_of_new
  exact ⟨hm.has, hf.get_of_moves_new hm, hhushed.containers, hhushed.journal⟩

theorem Moves.trans_new (hm : e.Moves e.New f) (hm' : f.Moves f.New g) : e.Moves e.New g :=
  hm.trans (hm'.mono fun _ => Or.imp_right fun hnot he => hnot (hm.has he))

/-! ### Grown nodes -/

/-- A node was made, or is the placeholder, and nothing holds it.  It reads as an expression. -/
structure Grown (f g : Forest) (c : NodeId) (t : Tree) : Prop where
  moves : f.Moves f.New g
  has : g.Has c
  new : f.New c
  free : g.parent c = none
  tree : g.tree c = t

theorem Grown.linked (hc : f.Grown g c t) (hf : f.Linked) : g.Linked :=
  (hf.ready_new.moves hc.moves).linked

theorem Grown.untouched (hc : f.Grown g c t) (hf : f.Linked) : f.Untouched g :=
  hf.untouched_of_new hc.moves

/-- What was there before reads as it did. -/
theorem Grown.tree_of_has (hc : f.Grown g c t) (hf : f.Linked) (hn : f.Has n) :
    g.tree n = f.tree n :=
  (hc.untouched hf).retains.tree hf (hc.linked hf) hn

/-- What has grown after others were made has grown with them. -/
theorem Grown.earlier (hc : f.Grown g c t) (hm : e.Moves e.New f) : e.Grown g c t where
  moves := hm.trans_new hc.moves
  has := hc.has
  new := hc.new.imp_right fun hnot he => hnot (hm.has he)
  free := hc.free
  tree := hc.tree

/-- What has grown is as it was when more is made. -/
theorem Grown.later (hc : e.Grown f c t) (he : e.Linked) (hm : f.Moves f.New g) : e.Grown g c t := by
  have hf := hc.linked he
  have hug := hf.untouched_of_new hm
  refine ⟨hc.moves.trans_new hm, hm.has hc.has, hc.new, ?_, ?_⟩
  · rw [parent, hug.get hc.has, ← parent, hc.free]
  · rw [hug.retains.tree hf (hf.ready_new.moves hm).linked hc.has, hc.tree]

theorem Grown.head (hc : f.Grown g c t) : g.head c = t.head := by
  rw [← g.head_tree, hc.tree]

theorem Grown.children (hc : f.Grown g c (.node h ts)) (hf : f.Linked) :
    (g.children c).map g.tree = ts := by
  have htree := hc.tree
  rw [(hc.linked hf).tree_eq hc.has] at htree
  exact (Rose.node.inj htree).2

theorem Grown.length (hc : f.Grown g c (.node h ts)) (hf : f.Linked) :
    (g.children c).length = ts.length := by
  rw [← hc.children hf, List.length_map]

theorem Grown.kinds (hc : f.Grown g c (.node h ts)) (hf : f.Linked) :
    (g.children c).map g.kind = ts.map Tree.kind := by
  rw [← hc.children hf, List.map_map]
  exact List.map_congr_left fun n _ => (g.kind_tree n).symm

theorem Grown.ne_placeholder (hc : f.Grown g c t) (hf : f.Linked) (ht : t.kind ≠ .unknown) :
    c ≠ .placeholder := by
  rintro rfl
  rw [← hc.tree, kind_tree, kind, (hc.linked hf).head_placeholder] at ht
  exact ht rfl

/-! ### Putting one below another -/

section

variable (hf : f.Linked) (hp : f.Grown g p (.counted h ts)) (hne : p ≠ .placeholder)
  (hleaf : h.isLeaf = false) (hroom : ∀ k, h.capacity = some k → ts.length < k)
  (hc : f.Grown g c t) (hcp : c ≠ p)
include hf hp hleaf hroom hc hcp

theorem Grown.insertFault? : g.insertFault? p ts.length c = none := by
  have hhead : g.head p = h.recounted (ts.map Tree.kind) := hp.head
  rw [← hp.length hf]
  refine (hp.linked hf).insertFault?_of_free hp.free hc.free ?_ hcp fun k hk => ?_
  · rw [hhead, Head.isLeaf_recounted, hleaf]
  · rw [hhead, Head.capacity_recounted] at hk
    rw [hp.length hf]
    exact hroom k hk

theorem Grown.moves_link : f.Moves f.New (g.link p ts.length c) := by
  have hinsert := Move.insert ⟨hp.has, hp.new⟩ ⟨hc.has, hc.new⟩
    (hp.insertFault? hf hleaf hroom hc hcp)
  rw [detach_of_parent_none hc.free] at hinsert
  exact hp.moves.trans (.single hinsert)

include hne

/-- What is put below a grown node leaves all others as they were. -/
theorem Grown.tree_link {n : NodeId} (hn : g.Has n) (hnp : n ≠ p) :
    (g.link p ts.length c).tree n = g.tree n :=
  (keeps_link hp.has _ _).tree_of_ne (hp.linked hf)
    (hf.ready_new.moves (hp.moves_link hf hleaf hroom hc hcp)).linked hp.free hne hn hnp

/-- A grown node is put behind what another one holds. -/
theorem Grown.attach : f.Grown (g.link p ts.length c) p (.counted h (ts ++ [t])) := by
  have hg := hp.linked hf
  have hr := rehung_link hp.has ts.length c
  have hmoves := hp.moves_link hf hleaf hroom hc hcp
  have hl : (g.children p).insertIdx ts.length c = g.children p ++ [c] := by
    rw [← hp.length hf, List.insertIdx_length_self]
  have hcounted : g.head p = h.recounted (ts.map Tree.kind) := hp.head
  have hkind : g.kind c = t.kind := by rw [← hc.tree, kind_tree]
  have hhead : (g.link p ts.length c).head p = h.recounted ((ts ++ [t]).map Tree.kind) := by
    rw [hr.head, if_pos rfl, hl, hcounted, Head.recounted_recounted, List.map_append, hp.kinds hf,
      List.map_append, List.map_singleton, List.map_singleton, hkind]
  have htrees : ((g.link p ts.length c).children p).map (g.link p ts.length c).tree = ts ++ [t] := by
    have htree {n : NodeId} := hp.tree_link (n := n) hf hne hleaf hroom hc hcp
    have hbefore : ∀ n ∈ g.children p, (g.link p ts.length c).tree n = g.tree n := by
      refine fun n hn => htree (hg.has_of_mem hn) ?_
      rintro rfl
      exact hg.ne_of_mem_children hp.free hn hne rfl
    rw [hr.children, if_pos rfl, hl, List.map_append, List.map_congr_left hbefore, hp.children hf,
      List.map_singleton, htree hc.has hcp, hc.tree]
  refine ⟨hmoves, has_link.2 hp.has, hp.new, ?_, ?_⟩
  · rw [hr.parent, if_neg fun he => hcp he.1.symm, hp.free]
  · rw [(hf.ready_new.moves hmoves).linked.tree_eq (has_link.2 hp.has), hhead, htrees, Tree.counted]

/-- What is put below a grown node stays apart from a third one. -/
theorem Grown.beside (hd : f.Grown g d u) (hdp : d ≠ p) (hdc : d = c → d = .placeholder) :
    f.Grown (g.link p ts.length c) d u := by
  have hr := rehung_link hp.has ts.length c
  refine ⟨hp.moves_link hf hleaf hroom hc hcp, has_link.2 hd.has, hd.new, ?_, ?_⟩
  · rw [hr.parent, if_neg fun he => he.2.1 (he.1 ▸ hdc he.1), hd.free]
  · rw [hp.tree_link hf hne hleaf hroom hc hcp hd.has hdp, hd.tree]

end

/-! ### What grows -/

theorem CopiedTo.grown (hf : f.Linked) (hc : f.CopiedTo f.New g n c) : f.Grown g c (f.tree n) where
  moves := hc.moves
  has := hc.replica.has
  new := or_iff_not_imp_left.2 hc.fresh
  free := hc.mirrors.parent_eq_none (hf.ready_new.moves hc.moves).linked
  tree := hc.replica.tree

theorem grown_plant (hf : f.Linked) {seed : Seed} (hseed : seed.head? = .ok h) :
    f.Grown (f.grow { head := h }).2 f.next (.node h []) := by
  have hmade := made_plant (S := f.New) (f := f) hseed
  refine ⟨hmade.moves, hmade.has, .inr hmade.fresh, hmade.free, ?_⟩
  rw [(hf.ready_new.moves hmade.moves).linked.tree_eq hmade.has, hmade.head, hmade.children,
    List.map_nil]

/-- Beside a grown node an empty qualifier is made. -/
theorem Grown.plant (hf : f.Linked) (hc : f.Grown g c t) (q : Qualifier) :
    f.Grown (g.grow { head := .blank .qualifier (.qualifier q) }).2 g.next
        (.counted (.blank .qualifier (.qualifier q)) []) ∧
      f.Grown (g.grow { head := .blank .qualifier (.qualifier q) }).2 c t := by
  have hplant := grown_plant (hc.linked hf) (seed_head_qualifier q)
  exact ⟨hplant.earlier hc.moves, hc.later hf hplant.moves⟩

theorem capacity_qualifier (q : Qualifier) (k : Nat)
    (hk : (Head.blank .qualifier (.qualifier q)).capacity = some k) : 0 < k := by
  cases q <;> cases hk <;> decide

theorem wrap_of_free (hc : f.parent c = none) : f.wrap q c
    = (f.grow { head := .blank .qualifier (.qualifier q) }).2.link f.next 0 c := by
  rw [wrap, detach_of_parent_none]
  rwa [parent_plant]

/-- A qualifier is put around a grown node. -/
theorem Grown.wrap (hf : f.Linked) (hc : f.Grown g c t) (q : Qualifier) :
    f.Grown (g.wrap q c) g.next (.qualified q [t]) := by
  obtain ⟨hp, hc'⟩ := hc.plant hf q
  have hw := hp.attach hf (hc.linked hf).next_ne_placeholder rfl (capacity_qualifier q) hc'
    (ne_next_of_has hc.has)
  rwa [Tree.counted_qualifier, List.length_nil, List.nil_append, ← wrap_of_free hc.free] at hw

/-- A case is put around two grown nodes. -/
theorem Grown.wrapPair (hf : f.Linked) (hv : f.Grown g v t) (hc : f.Grown g c u)
    (hcv : c = v → c = .placeholder) :
    f.Grown (g.wrapPair v c) g.next (.qualified .piece [t, u]) := by
  have hnext := (hc.linked hf).next_ne_placeholder
  have hw := hv.wrap hf .piece
  have hc' : f.Grown (g.wrap .piece v) c u := by
    obtain ⟨hp, hv'⟩ := hv.plant hf .piece
    have hbeside := hp.beside hf hnext rfl (capacity_qualifier .piece) hv' (ne_next_of_has hv.has)
      (hc.plant hf .piece).2 (ne_next_of_has hc.has) hcv
    rwa [List.length_nil, ← wrap_of_free hv.free] at hbeside
  have hlength : ((g.wrap .piece v).children g.next).length = 1 := hw.length hf
  rw [← Tree.counted_qualifier] at hw
  have hpair := hw.attach hf hnext rfl (fun k hk => by cases hk; exact Nat.one_lt_two) hc'
    (ne_next_of_has hc.has)
  rwa [Forest.wrapPair, (hw.linked hf).roomTaken_of_free hc'.free, hlength,
    detach_of_parent_none hc'.free]

/-! ### What grew later -/

section

variable (hf : f.Linked) (hp : f.Grown e p (.counted h ts)) (hne : p ≠ .placeholder)
  (hleaf : h.isLeaf = false) (hroom : ∀ k, h.capacity = some k → ts.length < k)
  (hc : e.Grown g c t)
include hf hp hne hleaf hroom hc

theorem Grown.insertFault?_later : g.insertFault? p ts.length c = none :=
  (hp.later hf hc.moves).insertFault? hf hleaf hroom (hc.earlier hp.moves) (hc.new.ne hp.has hne)

/-- What grew later is put behind what a grown node holds. -/
theorem Grown.take : f.Grown (g.link p ts.length c) p (.counted h (ts ++ [t])) :=
  (hp.later hf hc.moves).attach hf hne hleaf hroom (hc.earlier hp.moves) (hc.new.ne hp.has hne)

theorem Grown.run_insertAt :
    (Edit.insertAt p ts.length c).run g = (.ok (), g.link p ts.length c) := by
  rw [Edit.run_insertAt, hp.insertFault?_later hf hne hleaf hroom hc, detach_of_parent_none hc.free]

theorem Grown.run_append : (Edit.append p c).run g = (.ok (), g.link p ts.length c) := by
  have hlater := hp.later hf hc.moves
  have hlength := hlater.length hf
  rw [Edit.run_append, (hlater.linked hf).roomTaken_of_free hc.free, hlength,
    hp.run_insertAt hf hne hleaf hroom hc]

end

end Forest

end MathTree

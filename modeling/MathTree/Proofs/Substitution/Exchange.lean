import MathTree.Proofs.Action.Placement
import MathTree.Proofs.Substitution.Occurrences

/-!
# Exchanging leaves for copies

One leaf after another is exchanged for a copy of a node, each copy being made when its turn comes
(`Forest.Exchanges`).  What this comes to can be said of the forest in which it began: its nodes hold
the same children in the same places, but copies for the leaves that were exchanged
(`Forest.Exchanged`).  That is shown of one exchange at a time (`Exchange.exchanged`).
-/

namespace MathTree

open Forest

variable {S : NodeId → Prop} {e f g : Forest} {a m n p c d : NodeId} {i : Nat}
  {cs l : List NodeId} {σ : NodeId → NodeId}

/-! ### Lists in which an element is exchanged -/

theorem map_update_of_not_mem (hc : c ∉ l) : l.map (Function.update σ c d) = l.map σ :=
  List.map_congr_left fun _ hx => Function.update_of_ne (ne_of_mem_of_not_mem hx hc) d σ

theorem map_update_eq_set (hi : l[i]? = some c) (honce : l.count c ≤ 1) :
    l.map (Function.update σ c d) = (l.map σ).set i d := by
  obtain ⟨hlt, rfl⟩ := List.getElem?_eq_some_iff.1 hi
  have hnot := not_mem_eraseIdx honce hi
  refine List.ext_getElem (by simp) fun j hj hj' => ?_
  rw [List.getElem_map, List.getElem_set]
  split_ifs with hij
  · subst hij
    exact Function.update_self _ _ _
  · rw [List.getElem_map]
    refine Function.update_of_ne (fun h => hnot ?_) _ _
    rw [List.length_map] at hj
    exact List.mem_eraseIdx_iff_getElem.2 ⟨j, hj, fun e => hij e.symm, h⟩

namespace Forest

/-- Lets go of the child at a position, and links in another node there. -/
def swap (f : Forest) (p : NodeId) (i : Nat) (old c : NodeId) : Forest :=
  (f.unlink p i old).link p i c

/-- No node of a copy was there before. -/
theorem CopiedTo.not_has_of_mem_members (h : f.CopiedTo S g n c) (hm : m ∈ g.members c) :
    ¬ f.Has m := by
  have hfresh : ∀ m ∈ (g.spine c).toList, m ≠ .placeholder → ¬ f.Has m :=
    ((List.forall₂_and_left _ _).1
      (h.replica.clones.flip.imp fun _ _ hclone => ⟨hclone.fresh, hclone⟩)).1
  exact hfresh m (List.mem_of_mem_filter hm) (ne_placeholder_of_mem_members hm)

theorem CopiedTo.within (h : f.CopiedTo S g n c) (hf : f.Ready S) : g.Within S c := by
  refine ⟨h.replica.has, ?_⟩
  by_cases hne : c = .placeholder
  · exact hne ▸ hf.region.placeholder
  · exact hf.region.fresh (h.fresh hne)

/-- Some leaves were exchanged, and each node now has another or still itself in its place: a leaf has a
new copy of the argument there, which it shares with no other leaf unless it is the placeholder.  All
nodes that were there hold the same places, all but the leaves have the parents that they had, and all
say of themselves what they said, but that those whose children were exchanged have counted them. -/
structure Exchanged (e : Forest) (a : NodeId) (cs : List NodeId) (σ : NodeId → NodeId) (f : Forest) :
    Prop where
  has : ∀ {n : NodeId}, e.Has n → f.Has n
  children : ∀ {n : NodeId}, e.Has n → f.children n = (e.children n).map σ
  parent : ∀ {n : NodeId}, e.Has n → f.parent n = if n ∈ cs then none else e.parent n
  head : ∀ {n : NodeId}, e.Has n → f.head n =
    if ∃ c ∈ cs, e.parent c = some n then (e.head n).recounted ((f.children n).map f.kind)
    else e.head n
  leaf : ∀ c ∈ cs, c ≠ .placeholder ∧ e.children c = []
  kept : ∀ {n : NodeId}, n ∉ cs → σ n = n
  made : ∀ c ∈ cs, f.Has (σ c)
  fresh : ∀ c ∈ cs, ∀ m ∈ f.members (σ c), ¬ e.Has m
  placeholder : ∀ c ∈ cs, σ c = .placeholder ↔ a = .placeholder
  kind : ∀ c ∈ cs, f.kind (σ c) = e.kind a
  distinct : ∀ c ∈ cs, ∀ d ∈ cs, σ c = σ d → c = d ∨ a = .placeholder

theorem exchanged_nil (e : Forest) (a : NodeId) : e.Exchanged a [] id e where
  has := id
  children _ := (List.map_id _).symm
  parent _ := (if_neg List.not_mem_nil).symm
  head _ := (if_neg fun ⟨_, hc, _⟩ => List.not_mem_nil hc).symm
  leaf _ hc := absurd hc List.not_mem_nil
  kept _ := rfl
  made _ hc := absurd hc List.not_mem_nil
  fresh _ hc := absurd hc List.not_mem_nil
  placeholder _ hc := absurd hc List.not_mem_nil
  kind _ hc := absurd hc List.not_mem_nil
  distinct _ hc := absurd hc List.not_mem_nil

theorem Exchanged.head_cases (h : e.Exchanged a cs σ f) (hn : e.Has n) :
    ∃ kinds, f.head n = e.head n ∨ f.head n = (e.head n).recounted kinds := by
  refine ⟨(f.children n).map f.kind, ?_⟩
  rw [h.head hn]
  split_ifs
  · exact .inr rfl
  · exact .inl rfl

/-- What counting does not change of a head, an exchange does not change. -/
theorem Exchanged.head_congr {α : Type} {F : Head → α}
    (hF : ∀ h kinds, F (h.recounted kinds) = F h) (h : e.Exchanged a cs σ f) (hn : e.Has n) :
    F (f.head n) = F (e.head n) := by
  obtain ⟨kinds, hh | hh⟩ := h.head_cases hn
  · rw [hh]
  · rw [hh, hF]

theorem Exchanged.kind_eq (h : e.Exchanged a cs σ f) (hn : e.Has n) : f.kind n = e.kind n :=
  h.head_congr (F := Head.kind) Head.kind_recounted hn

/-! ### One exchange -/

/-- A copy takes the place of a leaf that has not been exchanged. -/
structure Exchange (S : NodeId → Prop) (e : Forest) (a : NodeId) (cs : List NodeId)
    (σ : NodeId → NodeId) (f g : Forest) (p c d : NodeId) (i : Nat) : Prop where
  linked : e.Linked
  ready : f.Ready S
  before : e.Exchanged a cs σ f
  argument : e.Has a
  copied : f.CopiedTo S g a d
  region : S p
  place : (e.children p)[i]? = some c
  ne : c ≠ .placeholder
  leaf : e.children c = []
  not_mem : c ∉ cs

namespace Exchange

variable (h : e.Exchange S a cs σ f g p c d i)
include h

theorem has_parent : e.Has p := has_of_getElem?_children h.place

theorem parent_eq : e.parent c = some p := (h.linked.parent_iff h.ne).2 (List.mem_of_getElem? h.place)

theorem ready_copied : g.Ready S := h.ready.moves h.copied.moves

theorem get_eq (hn : e.Has n) : g.get n = f.get n := h.copied.untouched.get (h.before.has hn)

theorem children_eq (hn : e.Has n) : g.children n = (e.children n).map σ := by
  rw [children, h.get_eq hn, ← children, h.before.children hn]

theorem getElem?_children : (g.children p)[i]? = some c := by
  rw [h.children_eq h.has_parent, List.getElem?_map, h.place, Option.map_some, h.before.kept h.not_mem]

theorem free : g.parent d = none := h.copied.mirrors.parent_eq_none h.ready_copied.linked

theorem ne_placeholder : p ≠ .placeholder :=
  h.linked.ne_placeholder_of_mem_children (List.mem_of_getElem? h.place)

theorem not_under_of_members (hn : g.Has n) (hfresh : ∀ m ∈ g.members n, ¬ e.Has m) :
    ¬ g.Under p n := fun hu =>
  hfresh p ((h.ready_copied.linked.mem_members_iff hn).2 ⟨h.ne_placeholder, hu⟩) h.has_parent

theorem not_under_copy : ¬ g.Under p d :=
  h.not_under_of_members h.copied.replica.has fun _ hm hem =>
    h.copied.not_has_of_mem_members hm (h.before.has hem)

theorem placed : g.Placed (g.swap p i c d) p ((g.children p).set i d) d [c] :=
  placed_exchange (h.copied.untouched.has (h.before.has h.has_parent)) h.copied.replica.has h.free
    h.getElem?_children (h.ready_copied.linked.has_of_mem (List.mem_of_getElem? h.getElem?_children))

theorem adoptFault?_eq_none : g.adoptFault? p d = none := by
  have hg := h.ready_copied.linked
  refine adoptFault?_eq_none_iff.2 ⟨?_, fun hm => ?_⟩
  · by_contra hl
    have hi := h.getElem?_children
    rw [hg.leaf (by simpa using hl)] at hi
    cases hi
  · have hp := h.copied.untouched.has (h.before.has h.has_parent)
    exact h.not_under_copy ((hg.mem_lineage_iff hp).1 hm)

theorem move : g.Move S (g.swap p i c d) := by
  have hp := h.copied.untouched.has (h.before.has h.has_parent)
  have hdetach : g.detach d = g := detach_of_parent_none h.free
  have hold : ((g.detach d).children p)[i]? = some c := by rw [hdetach, h.getElem?_children]
  have hmove : g.Move S (((g.detach d).unlink p i c).link p i d) :=
    .replace ⟨hp, h.region⟩ (h.copied.within h.ready) h.adoptFault?_eq_none hold
  rwa [hdetach] at hmove

theorem moves : f.Moves S (g.swap p i c d) := h.copied.moves.trans (.single h.move)

theorem linked_after : (g.swap p i c d).Linked := (h.ready.moves h.moves).linked

theorem keeps : g.Keeps (· ≠ p) (g.swap p i c d) where
  has := (h.placed.has _).2
  children hn hne := by
    rw [h.placed.children, if_neg hne, h.free, if_neg (Option.some_ne_none _).symm]
  head hn hne := by
    rw [h.placed.head, h.free, if_neg fun hq => hq.elim hne (Option.some_ne_none _).symm]

section

variable (hn : f.Has n) (hfresh : ∀ m ∈ f.members n, ¬ e.Has m)
include hn hfresh

theorem not_under_of_fresh : ¬ g.Under p n := by
  have hspine := h.copied.untouched.retains.spine h.ready.linked h.ready_copied.linked hn
  refine h.not_under_of_members (h.copied.untouched.has hn) fun m hm => hfresh m ?_
  rwa [members, hspine, ← members] at hm

/-- What consists of new nodes only is left alone. -/
theorem spine_eq : (g.swap p i c d).spine n = f.spine n :=
  (h.keeps.spine_of_not_under h.ready_copied.linked h.linked_after h.ne_placeholder
    (h.copied.untouched.has hn) (h.not_under_of_fresh hn hfresh)).trans
    (h.copied.untouched.retains.spine h.ready.linked h.ready_copied.linked hn)

theorem tree_eq : (g.swap p i c d).tree n = f.tree n :=
  (h.keeps.tree_of_not_under h.ready_copied.linked h.linked_after h.ne_placeholder
    (h.copied.untouched.has hn) (h.not_under_of_fresh hn hfresh)).trans
    (h.copied.untouched.retains.tree h.ready.linked h.ready_copied.linked hn)

end

/-- What was put in the place of a leaf before is left alone. -/
theorem tree_of_mem {c' : NodeId} (hc : c' ∈ cs) :
    (g.swap p i c d).tree (Function.update σ c d c') = f.tree (σ c') := by
  rw [Function.update_of_ne (ne_of_mem_of_not_mem hc h.not_mem)]
  exact h.tree_eq (h.before.made c' hc) (h.before.fresh c' hc)

/-- What is put in the place of the leaf reads as the argument does. -/
theorem tree_copy : (g.swap p i c d).tree (Function.update σ c d c) = f.tree a := by
  rw [Function.update_self]
  exact (h.keeps.tree_of_not_under h.ready_copied.linked h.linked_after h.ne_placeholder
    h.copied.replica.has h.not_under_copy).trans h.copied.replica.tree

theorem kind_eq (hn : f.Has n) : (g.swap p i c d).kind n = f.kind n := by
  rw [h.placed.kind, Forest.kind, head, h.copied.untouched.get hn, Forest.kind, head]

theorem children_after (hn : e.Has n) : (g.swap p i c d).children n
    = (e.children n).map (Function.update σ c d) := by
  rw [h.placed.children]
  split_ifs with hnp hfree
  · rw [hnp, map_update_eq_set h.place (h.linked.once p h.ne), h.children_eq h.has_parent]
  · rw [h.free] at hfree
    cases hfree
  · rw [h.children_eq hn, map_update_of_not_mem]
    intro hc
    have hparent := (h.linked.parent_iff h.ne).2 hc
    rw [h.parent_eq] at hparent
    exact hnp (Option.some.inj hparent).symm

theorem parent_after (hn : e.Has n) : (g.swap p i c d).parent n
    = if n ∈ cs ++ [c] then none else e.parent n := by
  have hnd : ¬ (n = d ∧ d ≠ .placeholder) := by
    rintro ⟨rfl, hne⟩
    exact h.copied.fresh hne (h.before.has hn)
  rw [h.placed.parent, if_neg hnd, parent, h.get_eq hn, ← parent, h.before.parent hn]
  by_cases hnc : n = c
  · simp [hnc, h.ne]
  · simp [hnc]

theorem head_after (hn : e.Has n) : (g.swap p i c d).head n
    = if ∃ c' ∈ cs ++ [c], e.parent c' = some n then
        (e.head n).recounted (((g.swap p i c d).children n).map (g.swap p i c d).kind)
      else e.head n := by
  have hfree : g.parent d ≠ some n := by
    rw [h.free]
    exact (Option.some_ne_none n).symm
  have hgn : g.head n = f.head n := by rw [head, h.get_eq hn, head]
  rw [h.placed.head, hgn]
  by_cases hnp : n = p
  · subst hnp
    have hc : ∃ c' ∈ cs ++ [c], e.parent c' = some n :=
      ⟨c, List.mem_append_right _ (List.mem_singleton_self c), h.parent_eq⟩
    rw [if_pos (.inl rfl), if_pos hc, funext h.placed.kind]
    obtain ⟨kinds, hh | hh⟩ := h.before.head_cases hn
    · rw [hh]
    · rw [hh, Head.recounted_recounted]
  · have hiff : (∃ c' ∈ cs ++ [c], e.parent c' = some n) ↔ ∃ c' ∈ cs, e.parent c' = some n := by
      simp [or_and_right, exists_or, h.parent_eq, Ne.symm hnp]
    have hkinds : ((g.swap p i c d).children n).map
        (g.swap p i c d).kind = (f.children n).map f.kind := by
      have hchildren : (g.swap p i c d).children n = f.children n := by
        rw [h.placed.children, if_neg hnp, if_neg hfree, h.children_eq hn, h.before.children hn]
      rw [hchildren]
      exact List.map_congr_left fun m hm => h.kind_eq (h.ready.linked.has_of_mem hm)
    rw [if_neg fun hq => hq.elim hnp hfree, h.before.head hn, hkinds]
    exact if_congr hiff.symm rfl rfl

theorem kind_copy : (g.swap p i c d).kind d = e.kind a := by
  have hhead := congrArg Tree.kind h.copied.replica.tree
  rw [h.ready_copied.linked.tree_eq h.copied.replica.has,
    h.ready.linked.tree_eq (h.before.has h.argument)] at hhead
  rw [h.placed.kind, ← h.before.kind_eq h.argument]
  exact hhead

/-- Only copies of the placeholder are put in two places. -/
theorem eq_placeholder_of_eq {c' : NodeId} (hc : c' ∈ cs) (heq : σ c' = d) : a = .placeholder := by
  by_contra hne
  have hd : d ≠ .placeholder := fun hph => hne (h.copied.mirrors.eq_placeholder_iff.1 hph)
  exact h.copied.fresh hd (heq ▸ h.before.made c' hc)

/-- With one leaf more exchanged, the forest in which it began comes out as it should. -/
theorem exchanged : e.Exchanged a (cs ++ [c]) (Function.update σ c d)
    (g.swap p i c d) := by
  have hcases {P : NodeId → NodeId → Prop} (hold : ∀ c' ∈ cs, P c' (σ c')) (hnew : P c d) :
      ∀ c' ∈ cs ++ [c], P c' (Function.update σ c d c') := by
    intro c' hc'
    rcases List.mem_append.1 hc' with hc' | hc'
    · rw [Function.update_of_ne (ne_of_mem_of_not_mem hc' h.not_mem)]
      exact hold c' hc'
    · rw [List.mem_singleton.1 hc', Function.update_self]
      exact hnew
  have hhas {m : NodeId} (hm : f.Has m) : (g.swap p i c d).Has m :=
    (h.placed.has _).2 (h.copied.untouched.has hm)
  have hd := h.copied.replica
  exact {
    has := fun hn => hhas (h.before.has hn)
    children := h.children_after
    parent := h.parent_after
    head := h.head_after
    leaf := fun c' hc' => by
      rcases List.mem_append.1 hc' with hc' | hc'
      · exact h.before.leaf c' hc'
      · exact List.mem_singleton.1 hc' ▸ ⟨h.ne, h.leaf⟩
    kept := fun {n} hn => by
      rw [List.mem_append, not_or, List.mem_singleton] at hn
      rw [Function.update_of_ne hn.2, h.before.kept hn.1]
    made := hcases (fun c' hc' => hhas (h.before.made c' hc')) ((h.placed.has d).2 hd.has)
    fresh := by
      refine hcases (P := fun _ x => ∀ m ∈ (g.swap p i c d).members x, ¬ e.Has m)
        (fun c' hc' m hm => ?_) fun m hm hem => ?_
      · rw [members, h.spine_eq (h.before.made c' hc') (h.before.fresh c' hc')] at hm
        exact h.before.fresh c' hc' m hm
      · rw [members, h.keeps.spine_of_not_under h.ready_copied.linked h.linked_after
          h.ne_placeholder hd.has h.not_under_copy] at hm
        exact h.copied.not_has_of_mem_members hm (h.before.has hem)
    placeholder := hcases (P := fun _ x => x = .placeholder ↔ a = .placeholder)
      h.before.placeholder h.copied.mirrors.eq_placeholder_iff
    kind := hcases (P := fun _ x => (g.swap p i c d).kind x = e.kind a)
      (fun c' hc' => (h.kind_eq (h.before.made c' hc')).trans (h.before.kind c' hc'))
      h.kind_copy
    distinct := fun x hx y hy hxy => by
      rw [List.mem_append, List.mem_singleton] at hx hy
      rcases hx with hx | rfl <;> rcases hy with hy | rfl
      · rw [Function.update_of_ne (ne_of_mem_of_not_mem hx h.not_mem),
          Function.update_of_ne (ne_of_mem_of_not_mem hy h.not_mem)] at hxy
        exact h.before.distinct x hx y hy hxy
      · rw [Function.update_of_ne (ne_of_mem_of_not_mem hx h.not_mem), Function.update_self] at hxy
        exact .inr (h.eq_placeholder_of_eq hx hxy)
      · rw [Function.update_of_ne (ne_of_mem_of_not_mem hy h.not_mem), Function.update_self] at hxy
        exact .inr (h.eq_placeholder_of_eq hy hxy.symm)
      · exact .inl rfl }

end Exchange

/-! ### All exchanges -/

/-- Leaves of a forest were exchanged for copies of a node, one after the other. -/
inductive Exchanges (S : NodeId → Prop) (e : Forest) (a : NodeId) :
    List NodeId → (NodeId → NodeId) → Forest → Prop
  | nil : Exchanges S e a [] id e
  | snoc {cs : List NodeId} {σ : NodeId → NodeId} {f g : Forest} {p c d : NodeId} {i : Nat}
    (h : Exchanges S e a cs σ f) (hx : e.Exchange S a cs σ f g p c d i) :
    Exchanges S e a (cs ++ [c]) (Function.update σ c d) (g.swap p i c d)

theorem Exchanges.exchanged (h : e.Exchanges S a cs σ f) : e.Exchanged a cs σ f := by
  cases h with
  | nil => exact exchanged_nil e a
  | snoc _ hx => exact hx.exchanged

theorem Exchanges.moves (h : e.Exchanges S a cs σ f) : e.Moves S f := by
  induction h with
  | nil => exact .refl
  | snoc _ hx ih => exact ih.trans hx.moves

/-! ### What has not changed -/

/-- All is kept that no exchanged leaf stands below. -/
theorem Exchanged.keeps (h : e.Exchanged a cs σ f) (he : e.Linked) :
    e.Keeps (fun n => ∀ c ∈ cs, ¬ e.Below c n) f where
  has := h.has
  children {n} hn hbelow := by
    have hkept : ∀ m ∈ e.children n, σ m = m := fun m hm => h.kept fun hc =>
      hbelow m hc (he.below_of_mem_children hm (h.leaf m hc).1)
    rw [h.children hn, List.map_congr_left hkept, List.map_id']
  head {n} hn hbelow := by
    rw [h.head hn, if_neg]
    rintro ⟨c, hc, hp⟩
    exact hbelow c hc (.single hp)

theorem Exchanged.tree_of_not_below (h : e.Exchanged a cs σ f) (he : e.Linked) (hf : f.Linked)
    (hn : e.Has n) (hbelow : ∀ c ∈ cs, ¬ e.Below c n) : f.tree n = e.tree n :=
  (h.keeps he).tree he hf
    (fun _ hq _ hm c hc hcm => hq c hc (he.below_of_below hcm hm)) hn hbelow

/-- If only the last leaf stands below the argument, all copies read as the argument did. -/
theorem Exchanges.tree_copy (h : e.Exchanges S a cs σ f) (ha : ∀ c ∈ cs.dropLast, ¬ e.Below c a) :
    ∀ c ∈ cs, f.tree (σ c) = e.tree a := by
  induction h with
  | nil => exact fun c hc => absurd hc List.not_mem_nil
  | @snoc cs σ f g p c d i h hx ih =>
    rw [List.dropLast_concat] at ha
    intro c' hc'
    rcases List.mem_append.1 hc' with hc' | hc'
    · rw [hx.tree_of_mem hc', ih (fun x hx => ha x (List.dropLast_subset _ hx)) c' hc']
    · rw [List.mem_singleton.1 hc', hx.tree_copy]
      exact hx.before.tree_of_not_below hx.linked hx.ready.linked hx.argument ha

end Forest

end MathTree

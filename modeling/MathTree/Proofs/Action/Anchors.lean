import MathTree.Proofs.Action.Links

/-!
# Anchors of whole subtrees

As long as only nodes without a parent are anchored and freed, whatever stands below a node that is
anchored is anchored where it is (`wellAnchored_of_anchorsTop`): a subtree that is linked in takes over
the anchor of its parent, copies are anchored as what they are copied from, and whole trees are
anchored and freed.  A node that is taken away from its parent is anchored to nothing, and neither is
what stands below it (`unanchored_of_releases`).
-/

namespace MathTree

open Forest

variable {S : NodeId → Prop} {f g : Forest} {m n p c : NodeId} {i : Nat} {k : ContainerId}
  {action : Action} {actions : List Action}

namespace Forest

/-! ### Anchors are shared -/

/-- Whether the children of each node that is anchored are anchored where it is. -/
def Anchored (f : Forest) : Prop :=
  ∀ p k, f.anchor p = some k → ∀ c ∈ f.children p, c ≠ .placeholder → f.anchor c = some k

theorem Anchored.congr (h : f.Anchored) (hchildren : ∀ n, g.children n = f.children n)
    (hanchor : ∀ n, g.anchor n = f.anchor n) : g.Anchored := by
  intro p k hp c hc hne
  rw [hanchor] at hp
  rw [hchildren] at hc
  rw [hanchor]
  exact h p k hp c hc hne

/-- Whatever stands below a node that is anchored is anchored where it is. -/
theorem Anchored.under (h : f.Anchored) (hf : f.Linked) (hp : f.anchor p = some k)
    (hc : f.Under c p) (hne : c ≠ .placeholder) : f.anchor c = some k :=
  hf.of_under (fun q hq => h q k hq) hp hc hne

/-- A copy is anchored where what it was copied from is. -/
theorem exists_anchor_of_mirrors {l copies : List NodeId} (h : List.Forall₂ f.Mirrors copies l)
    (hc : c ∈ copies) (hne : c ≠ .placeholder) :
    ∃ d ∈ l, d ≠ .placeholder ∧ f.anchor c = f.anchor d := by
  obtain ⟨d, hd, hcd⟩ := exists_of_mirrors h hc
  unfold Mirrors at hcd
  split_ifs at hcd with hph
  · exact absurd hcd hne
  · exact ⟨d, hd, hph, hcd.2.2.2.2.1⟩

theorem Anchored.graft (h : f.Anchored) (hf : f.Linked) {copies : List NodeId}
    (hcopies : List.Forall₂ f.Mirrors copies (f.children n)) : (f.graft n copies).Anchored := by
  have hold {c : NodeId} (hc : f.Has c) : (f.graft n copies).anchor c = f.anchor c := by
    rw [anchor_graft, if_neg (ne_next_of_has hc)]
  intro p k hp c hc hne
  rw [children_graft] at hc
  rw [anchor_graft] at hp
  split_ifs at hp hc
  · obtain ⟨d, hd, hdne, hcd⟩ := exists_anchor_of_mirrors hcopies hc hne
    rw [hold (free_of_mirrors hcopies c hc hne).1, hcd]
    exact h n k hp d hd hdne
  · rw [hold (hf.has_of_mem hc)]
    exact h p k hp c hc hne

/-- Within the subtree that is linked in all nodes are anchored where its parent is, and the other
links are as they were. -/
theorem Anchored.link (h : f.Anchored) (hg : (f.link p i c).Linked) (hp : f.Has p) (hc : f.Has c)
    (hi : i ≤ (f.children p).length) : (f.link p i c).Anchored := by
  have hlc : (f.link p i c).Has c := has_link.2 hc
  intro q k hq d hd hne
  have hmem := hg.mem_members_iff_of_mem_children hlc hd hne
  rw [hg.anchor_link hp hc] at hq ⊢
  split_ifs at hq with hcond
  · rw [if_pos ⟨hcond.1, hcond.2.1, hmem.2 (.inr hcond.2.2)⟩, hq]
  · by_cases hdc : d = c
    · subst hdc
      have hqp : some p = some q := by
        rw [← (hg.parent_iff hne).2 hd, (rehung_link hp i d).parent, if_pos ⟨rfl, hne, hc⟩]
      obtain rfl := Option.some.inj hqp
      rw [if_pos ⟨by rw [hq]; rfl, hne, hmem.2 (.inl rfl)⟩, hq]
    · rw [if_neg fun hd' => hcond ⟨hd'.1, hd'.2.1, (hmem.1 hd'.2.2).resolve_left hdc⟩]
      refine h q k hq d ?_ hne
      rw [(rehung_link hp i c).children] at hd
      split_ifs at hd with hqp
      · exact hqp ▸ ((List.mem_insertIdx hi).1 hd).resolve_left hdc
      · exact hd

theorem Anchored.unlink (h : f.Anchored) (hg : (f.unlink p i c).Linked) (hp : f.Has p)
    (hc : f.Has c) : (f.unlink p i c).Anchored := by
  have hlc : (f.unlink p i c).Has c := has_unlink.2 hc
  intro q k hq d hd hne
  rw [hg.anchor_unlink hp hc] at hq ⊢
  split_ifs at hq with hcond
  have hfree (hcne : c ≠ .placeholder) : (f.unlink p i c).parent c = none := by
    rw [(rehung_unlink hp i c).parent, if_pos ⟨rfl, hcne, hc⟩]
  rw [if_neg fun hd' => hcond ⟨hd'.1,
    (hg.mem_members_iff_of_parent_none hlc (hfree hd'.1) hd hne).1 hd'.2⟩]
  refine h q k hq d ?_ hne
  rw [(rehung_unlink hp i c).children] at hd
  split_ifs at hd with hqp
  · exact hqp ▸ List.mem_of_mem_eraseIdx hd
  · exact hd

theorem Anchored.step (h : f.Anchored) (hf : f.Linked) (hs : f.Step S g) : g.Anchored := by
  have hg := hf.step hs
  cases hs with
  | plant => exact h.congr (fun _ => children_plant) fun _ => anchor_plant
  | graft _ hcopies => exact h.graft hf hcopies
  | link hp hc _ _ _ _ _ hi => exact h.link hg hp hc hi
  | unlink _ hi =>
    exact h.unlink hg (has_of_getElem?_children hi) (hf.has_of_mem (List.mem_of_getElem? hi))
  | @free n _ _ hfree =>
    intro q k hq d hd hne
    rw [children_discard] at hd
    rw [anchor_discard] at hq ⊢
    split_ifs at hd hq with hqn
    rw [if_neg (hf.ne_of_mem_children hfree hd hne)]
    exact h q k hq d hd hne

theorem Anchored.steps (h : f.Anchored) (hf : f.Linked) (hs : f.Steps S g) : g.Anchored := by
  induction hs with
  | refl => exact h
  | tail hs hstep ih => exact ih.step (hf.steps hs) hstep

/-- Of a node without a parent, the whole tree is anchored or freed. -/
theorem Anchored.anchorBelow (h : f.Anchored) (hf : f.Linked) (hn : f.Has n)
    (hfree : f.parent n = none) (container : Option ContainerId) :
    (f.anchorBelow n container).Anchored := by
  intro p k hp c hc hne
  rw [(alike_anchorBelow f n container).children] at hc
  have hmem := hf.mem_members_iff_of_parent_none hn hfree hc hne
  rw [anchor_anchorBelow] at hp ⊢
  split_ifs at hp with hcond
  · rw [if_pos ⟨hmem.2 hcond.1, hf.has_of_mem hc⟩, hp]
  · have hpm : ¬ p ∈ f.members n := fun hpm =>
      hcond ⟨hpm, hf.has_of_under hn ((hf.mem_members_iff hn).1 hpm).2⟩
    rw [if_neg fun hc' => hpm (hmem.1 hc'.1)]
    exact h p k hp c hc hne

/-! ### Anchors after an action -/

/-- Whether an action that anchors or frees does so with a node without a parent. -/
def AnchorsTop (f : Forest) (action : Action) : Prop :=
  ∀ n, (∃ k, action = .anchor n k) ∨ action = .unanchor n → f.parent n = none

theorem Anchored.after (h : f.Anchored) (hf : f.Linked) (ha : f.Admits action)
    (htop : f.AnchorsTop action) : (f.after action).Anchored := by
  by_cases hm : action.Rearranges
  · exact h.steps hf ((moves_after hf ha hm).steps hf.ready)
  · cases action with
    | drop n => exact h.steps hf steps_drop
    | anchor n k =>
      exact h.anchorBelow hf (ha n List.mem_cons_self) (htop n (.inl ⟨k, rfl⟩)) _
    | unanchor n => exact h.anchorBelow hf (ha n List.mem_cons_self) (htop n (.inr rfl)) _
    | _ =>
      rcases (effect hf ha).steps_or_same_links with hs | ⟨-, hchildren⟩
      · exact h.steps hf hs
      · exact h.congr hchildren ((annotates_after hm nofun).anchor nofun nofun)

theorem anchored_start : start.Anchored := by
  intro p k hp
  have hnone : start.anchor p = none := by
    obtain ⟨i⟩ := p
    cases i <;> rfl
  rw [hnone] at hp
  cases hp

/-! ### Nodes that are taken away -/

end Forest

/-- Whether an action takes a node away from its parent by position, by name or for another. -/
def Action.Removes : Action → Prop
  | .removeAt .. | .replaceAt .. | .detach _ => True
  | .plant _ | .qualify .. | .piece .. | .compose _ | .copy _ => False
  | .append .. | .prepend .. | .insertAt .. | .drop _ => False
  | .setLeft .. | .setRight .. | .setOperand .. => False
  | .addBound .. | .setBody .. | .addCase .. | .setFallback .. | .substitute .. => False
  | .setKind .. | .setStrict .. | .assign .. | .hear .. | .unhear .. => False
  | .openContainer .. | .closeContainer _ | .anchor .. | .unanchor _ => False

namespace Forest

/-- Whether an action takes a node away from its parent and leaves it on its own. -/
def Releases (f : Forest) (action : Action) (n : NodeId) : Prop :=
  action.Removes ∧ (f.parent n).isSome ∧ (f.after action).parent n = none

/-- Only the child that is let go loses its parent. -/
theorem eq_of_parent_unlink (hp : f.Has p) (hn : (f.parent n).isSome)
    (hfree : (f.unlink p i c).parent n = none) : n = c ∧ c ≠ .placeholder := by
  rw [(rehung_unlink hp i c).parent] at hfree
  split_ifs at hfree with h
  · exact ⟨h.1, h.2.1⟩
  · rw [hfree] at hn
    cases hn

theorem Linked.ne_placeholder_of_under (hf : f.Linked) (hm : f.Under m n) (hn : n ≠ .placeholder) :
    m ≠ .placeholder := by
  obtain rfl | ⟨q, hq, -⟩ := Relation.ReflTransGen.cases_head hm
  · exact hn
  · exact hf.ne_placeholder_of_parent hq

theorem Linked.unanchored_unlink (hf : f.Linked) (hi : (f.children p)[i]? = some c)
    (hne : c ≠ .placeholder) (hm : (f.unlink p i c).Under m c) :
    (f.unlink p i c).anchor m = none := by
  have hc := hf.has_of_mem (List.mem_of_getElem? hi)
  have hg := hf.unlink hi
  rw [hg.anchor_unlink (has_of_getElem?_children hi) hc, if_pos]
  refine ⟨hne, (hg.mem_members_iff (has_unlink.2 hc)).2 ⟨?_, hm⟩⟩
  exact hg.ne_placeholder_of_under hm hne

/-- Of two nodes above a node, one stands under the other. -/
theorem under_total {a b : NodeId} (ha : f.Under m a) (hb : f.Under m b) :
    f.Under a b ∨ f.Under b a :=
  Relation.ReflTransGen.total_of_right_unique
    (fun _ _ _ h h' => Option.some.inj (Eq.trans (Eq.symm h) h')) ha hb

/-- A whole tree, to which neither the new child nor its parent belongs, stays as it is. -/
theorem Linked.anchor_link_of_not_under (hg : (f.link p i c).Linked) (hp : f.Has p) (hc : f.Has c)
    (hfree : f.parent n = none) (hnc : n ≠ c) (hpn : ¬ f.Under p n)
    (hm : (f.link p i c).Under m n) :
    f.Under m n ∧ (f.link p i c).anchor m = f.anchor m := by
  have hl := rehung_link hp i c
  have hnew (a b : NodeId) (hab : (f.link p i c).parent a = some b) :
      f.parent a = some b ∨ a = c ∧ b = p := by
    rw [hl.parent] at hab
    split_ifs at hab with h
    · exact .inr ⟨h.1, (Option.some.inj hab).symm⟩
    · exact .inl hab
  have hold (a : NodeId) (ha : (f.link p i c).Under a n) : f.Under a n :=
    (under_of_new_parent hnew ha).resolve_right fun h => hpn h.2
  refine ⟨hold m hm, ?_⟩
  have hmc : ¬ (c ≠ .placeholder ∧ m ∈ (f.link p i c).members c) := by
    rintro ⟨hcne, hmc⟩
    have hcp : (f.link p i c).parent c = some p := by rw [hl.parent, if_pos ⟨rfl, hcne, hc⟩]
    have hnp : (f.link p i c).parent n = none := by rw [hl.parent, if_neg fun h => hnc h.1, hfree]
    rcases under_total hm ((hg.mem_members_iff (has_link.2 hc)).1 hmc).2 with hu | hu
    · obtain rfl | ⟨q, hq, -⟩ := Relation.ReflTransGen.cases_head hu
      · exact hnc rfl
      · rw [ChildOf, hnp] at hq
        cases hq
    · obtain rfl | ⟨q, hq, hu⟩ := Relation.ReflTransGen.cases_head hu
      · exact hnc rfl
      · rw [ChildOf, hcp] at hq
        exact hpn (hold p (Option.some.inj hq ▸ hu))
  rw [hg.anchor_link hp hc, if_neg fun h => hmc h.2]

/-- The parent held the child that is let go, so it does not stand below it. -/
theorem Linked.not_under_unlink (hf : f.Linked) (hi : (f.children p)[i]? = some c)
    (hne : c ≠ .placeholder) : ¬ (f.unlink p i c).Under p c := fun hu => by
  have hparent : f.parent c = some p := (hf.parent_iff hne).2 (List.mem_of_getElem? hi)
  refine hf.acyclic c (.head' hparent (under_mono (fun a b hab => ?_) hu))
  rw [(rehung_unlink (has_of_getElem?_children hi) i c).parent] at hab
  split_ifs at hab
  exact hab

/-- What takes the place of a child that is let go is anchored apart from it. -/
theorem Linked.unanchored_replace (hf : f.Linked) {old : NodeId} (hc : f.Has c)
    (hi : (f.children p)[i]? = some old) (hg : ((f.unlink p i old).link p i c).Linked)
    (hn : (f.parent n).isSome) (hfree : ((f.unlink p i old).link p i c).parent n = none)
    (hm : ((f.unlink p i old).link p i c).Under m n) :
    ((f.unlink p i old).link p i c).anchor m = none := by
  have hp := has_of_getElem?_children hi
  have hp' : (f.unlink p i old).Has p := has_unlink.2 hp
  have hc' : (f.unlink p i old).Has c := has_unlink.2 hc
  have hnne : n ≠ .placeholder := hf.ne_placeholder_of_parent (Option.some_get hn).symm
  rw [(rehung_link hp' i c).parent] at hfree
  split_ifs at hfree with hnc
  obtain ⟨rfl, hne⟩ := eq_of_parent_unlink hp hn hfree
  have hnc' : n ≠ c := by
    rintro rfl
    exact hnc ⟨rfl, hne, hc'⟩
  obtain ⟨hu, hsame⟩ := hg.anchor_link_of_not_under hp' hc' hfree hnc' (hf.not_under_unlink hi hne) hm
  rw [hsame]
  exact hf.unanchored_unlink hi hne hu

theorem after_removeAt_cases (f : Forest) (p : NodeId) (i : Nat) :
    f.after (.removeAt p i) = f ∨
      ∃ c, (f.children p)[i]? = some c ∧ f.after (.removeAt p i) = f.unlink p i c := by
  rw [after_map rfl]
  simp only [Edit.removeAt, Edit.run_bind, Edit.run_get, Edit.run_ite, Edit.run_pure,
    Edit.run_unlinkAt?]
  split_ifs
  · exact .inl rfl
  · cases (f.children p)[i]? with
    | none => exact .inl rfl
    | some c => exact .inr ⟨c, rfl, rfl⟩

theorem Linked.after_detach_cases (hf : f.Linked) (c : NodeId) :
    f.after (.detach c) = f ∨
      ∃ p i, (f.children p)[i]? = some c ∧ f.after (.detach c) = f.unlink p i c := by
  have hafter : f.after (.detach c) = f.detach c := rfl
  rw [hafter]
  cases hp : f.parent c with
  | none => exact .inl (detach_of_parent_none hp)
  | some p =>
    obtain ⟨i, hi, -, hd⟩ := hf.detach_of_parent hp
    exact .inr ⟨p, i, hi, hd⟩

theorem Linked.after_replaceAt_cases (hf : f.Linked) (p : NodeId) (i : Nat) (c : NodeId) :
    f.after (.replaceAt p i c) = f ∨
      ∃ j old, f.adoptFault? p c = none ∧ ((f.detach c).children p)[j]? = some old ∧
        f.after (.replaceAt p i c) = ((f.detach c).unlink p j old).link p j c := by
  rw [after_map rfl]
  rcases Edit.run_replaceAt_cases hf p i c with hsame | ⟨old, hadopt, hat, hcur, hrun⟩
  · exact .inl hsame
  · exact .inr ⟨f.slot p i c, old, hadopt, (hf.getElem?_slot hcur).trans (getElem?_of_childAt hat),
      hrun⟩

/-- A node that is taken away is anchored to nothing, and neither is what stands below it. -/
theorem unanchored_of_releases (hf : f.Linked) (ha : f.Admits action) (hr : f.Releases action n)
    (hm : (f.after action).Under m n) : (f.after action).anchor m = none := by
  obtain ⟨hremoves, hn, hfree⟩ := hr
  have hchanged : f.after action ≠ f := by
    intro hsame
    rw [hsame] at hfree
    rw [hfree] at hn
    cases hn
  cases action with
  | removeAt p i =>
    obtain ⟨c, hi, hafter⟩ := (f.after_removeAt_cases p i).resolve_left hchanged
    rw [hafter] at hfree hm ⊢
    obtain ⟨rfl, hne⟩ := eq_of_parent_unlink (has_of_getElem?_children hi) hn hfree
    exact hf.unanchored_unlink hi hne hm
  | detach c =>
    obtain ⟨p, i, hi, hafter⟩ := (hf.after_detach_cases c).resolve_left hchanged
    rw [hafter] at hfree hm ⊢
    obtain ⟨rfl, hne⟩ := eq_of_parent_unlink (has_of_getElem?_children hi) hn hfree
    exact hf.unanchored_unlink hi hne hm
  | replaceAt p i c =>
    obtain ⟨j, old, hadopt, hi, hafter⟩ := (hf.after_replaceAt_cases p i c).resolve_left hchanged
    have hp : f.Has p := ha p List.mem_cons_self
    have hc : f.Has c := ha c (List.mem_cons_of_mem _ List.mem_cons_self)
    have hg := hf.after ha
    rw [hafter] at hfree hm hg ⊢
    have hn' : ((f.detach c).parent n).isSome := by
      rw [hf.parent_detach]
      split_ifs with hnc
      · -- what is put in the place of another has a parent
        have hne : n ≠ .placeholder := hf.ne_placeholder_of_parent (Option.some_get hn).symm
        rw [(rehung_link (has_unlink.2 (has_detach.2 hp)) j c).parent,
          if_pos ⟨hnc, hnc ▸ hne, has_unlink.2 (has_detach.2 hc)⟩] at hfree
        cases hfree
      · exact hn
    exact (hf.detach c).unanchored_replace (has_detach.2 hc) hi hg hn' hfree hm
  | _ => exact hremoves.elim

/-! ### Anchors in every forest that can be reached -/

/-- What stands below a node that is anchored, its children and all others, is anchored where it is,
and the placeholder to nothing. -/
structure WellAnchored (f : Forest) : Prop where
  children : ∀ p k, f.anchor p = some k → ∀ c ∈ f.children p, c ≠ .placeholder → f.anchor c = some k
  below : ∀ p k, f.anchor p = some k → ∀ n, f.Under n p → f.anchor n = some k
  placeholder : f.anchor .placeholder = none

theorem Anchored.wellAnchored (h : f.Anchored) (hf : f.Linked) : f.WellAnchored where
  children := h
  below p k hp n hn := by
    refine h.under hf hp hn (hf.ne_placeholder_of_under hn ?_)
    rintro rfl
    rw [hf.anchor_placeholder] at hp
    cases hp
  placeholder := hf.anchor_placeholder

/-- As long as only nodes without a parent are anchored and freed, anchors are shared by whole subtrees
in every state, and what has just been taken away is anchored to nothing, all through. -/
theorem wellAnchored_of_anchorsTop
    (h : start.Along (fun f action => f.Admits action ∧ f.AnchorsTop action) actions) :
    start.Throughout WellAnchored actions ∧
      start.Along (fun f action => ∀ n, f.Releases action n →
        ∀ m, (f.after action).Under m n → (f.after action).anchor m = none) actions := by
  refine ⟨throughout_of_along (fun hf ha hw => ?_) (fun ha => ha.1) .start h
    (anchored_start.wellAnchored linked_start), along_of_along (fun hf ha n hr m hm => ?_)
    (fun ha => ha.1) .start h⟩
  · have hs : Anchored _ := hw.children
    exact (hs.after hf.linked ha.1 ha.2).wellAnchored (hf.linked.after ha.1)
  · exact unanchored_of_releases hf.linked ha.1 hr hm

/-- Makes a sum, node one, of two names, anchors it before it has the second, and takes the first
away. -/
def anchoredSum : List Action :=
  [.openContainer 3 2, .plant (.ofKind .plus), .plant (.identifier "x"), .append ⟨1⟩ ⟨2⟩,
    .anchor ⟨1⟩ ⟨0⟩, .plant (.identifier "y"), .append ⟨1⟩ ⟨3⟩, .removeAt ⟨1⟩ 0]

theorem wellAnchored_anchoredSum :
    let before := start.run (anchoredSum.take 7)
    let after := start.run anchoredSum
    (before.anchor ⟨2⟩ = some ⟨0⟩ ∧ before.anchor ⟨3⟩ = some ⟨0⟩) ∧
      start.Along (fun f action => f.Admits action ∧ f.AnchorsTop action) anchoredSum ∧
      start.Throughout WellAnchored anchoredSum ∧
      before.Releases (.removeAt ⟨1⟩ 0) ⟨2⟩ ∧ after.anchor ⟨2⟩ = none := by
  have h : start.Along (fun f action => f.Admits action ∧ f.AnchorsTop action) anchoredSum := by
    refine ⟨⟨by decide, ?_⟩, ⟨by decide, ?_⟩, ⟨by decide, ?_⟩, ⟨by decide, ?_⟩, ⟨by decide, ?_⟩,
      ⟨by decide, ?_⟩, ⟨by decide, ?_⟩, ⟨by decide, ?_⟩, trivial⟩
    all_goals rintro n (⟨k, hn⟩ | hn) <;> cases hn
    decide
  have hr : (start.run (anchoredSum.take 7)).Releases (.removeAt ⟨1⟩ 0) ⟨2⟩ :=
    ⟨trivial, by decide, by decide⟩
  obtain ⟨hw, hreleased⟩ := wellAnchored_of_anchorsTop h
  exact ⟨by decide, h, hw, hr, hreleased.2.2.2.2.2.2.2.1 ⟨2⟩ hr ⟨2⟩ .refl⟩

end Forest

end MathTree

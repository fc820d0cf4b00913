import MathTree.Proofs.Forest.Listeners

/-!
# Anchors

The container that a node is anchored to, whether it is open or not.  Of the nodes that are there,
three writes change it: `anchorBelow`, which reaches the nodes of one subtree, `link`, by which the
subtree that is linked in comes to be anchored where its new parent is, if that is anchored
(`Linked.anchor_link`), and `unlink`, by which the subtree that is let go comes to be anchored to
nothing (`Linked.anchor_unlink`).
-/

namespace MathTree.Forest

variable {f g : Forest} {m n p c : NodeId} {i : Nat}

/-- The container that a node is anchored to. -/
def anchor (f : Forest) (n : NodeId) : Option ContainerId := (f.get n).container

theorem anchor_of_not_has (h : ¬ f.Has n) : f.anchor n = none := by
  rw [anchor, get_of_not_has f h]
  rfl

theorem Linked.anchor_placeholder (h : f.Linked) : f.anchor .placeholder = none := by
  rw [anchor, h.placeholder]
  rfl

/-! ### Writes that change no anchors -/

theorem anchor_modify {change : Record → Record} (h : ∀ r, (change r).container = r.container) :
    (f.modify n change).anchor m = f.anchor m := by
  rw [anchor, get_modify]
  split_ifs
  · exact h _
  · rfl

theorem anchor_hearBelow (x : ListenerId) : (f.hearBelow n x).anchor m = f.anchor m := by
  rw [anchor, hearBelow, get_modifyBelow _ fun r => r.hear_hear x]
  split_ifs
  · unfold Record.hear
    split_ifs <;> rfl
  · rfl

theorem anchor_unhearBelow (x : ListenerId) : (f.unhearBelow n x).anchor m = f.anchor m := by
  rw [anchor, unhearBelow, get_modifyBelow _ fun r => r.unhear_unhear x]
  split_ifs <;> rfl

theorem anchor_foldl_hearBelow (ls : List ListenerId) (f : Forest) :
    (ls.foldl (fun f x => f.hearBelow n x) f).anchor m = f.anchor m := by
  induction ls generalizing f with
  | nil => rfl
  | cons x ls ih => rw [List.foldl_cons, ih, anchor_hearBelow]

theorem anchor_announce (aspect : Aspect) (before after : Datum) :
    (f.announce n aspect before after).anchor m = f.anchor m := rfl

theorem anchor_announceAdded : (f.announceAdded n c).anchor m = f.anchor m := rfl

theorem anchor_announceRemoved : (f.announceRemoved n c).anchor m = f.anchor m := rfl

theorem anchor_announceIfChanged (aspect : Aspect) (before after : Datum) :
    (f.announceIfChanged n aspect before after).anchor m = f.anchor m := by
  unfold announceIfChanged
  split_ifs <;> rfl

theorem anchor_recount : (f.recount n).anchor m = f.anchor m := by
  unfold recount
  split
  · rw [anchor_announceIfChanged]
    exact anchor_modify fun _ => rfl
  · rw [anchor_announceIfChanged, anchor_announceIfChanged]
    exact anchor_modify fun _ => rfl
  · rfl

/-! ### Linking and unlinking -/

theorem anchor_anchorBelow (container : Option ContainerId) :
    (f.anchorBelow n container).anchor m
      = if m ∈ f.members n ∧ f.Has m then container else f.anchor m := by
  rw [anchor, anchorBelow, get_modifyBelow ({ · with container := container }) fun _ => rfl]
  split_ifs <;> rfl

/-- Another parent makes no other subtrees. -/
theorem members_modify_parent (q : Option NodeId) (n : NodeId) :
    (f.modify c ({ · with parent := q })).members n = f.members n := by
  refine members_congr (by simp [modify]) (fun m => ?_) n
  rw [children, get_modify]
  split_ifs <;> rfl

theorem anchor_adopt : (f.adopt p c).anchor m
    = if (f.anchor p).isSome ∧ m ∈ f.members c ∧ f.Has m then f.anchor p else f.anchor m := by
  have hparent : (f.modify c ({ · with parent := some p })).anchor m = f.anchor m :=
    anchor_modify fun _ => rfl
  rw [adopt, anchor_foldl_hearBelow, place, ← anchor]
  by_cases hp : (f.anchor p).isSome
  · simp only [hp, if_true, true_and, anchor_anchorBelow, members_modify_parent, has_modify, hparent]
  · rw [if_neg hp, if_neg fun h => hp h.1, hparent]

theorem anchor_settle : (f.settle p c).anchor m
    = if c ≠ .placeholder ∧ (f.anchor p).isSome ∧ m ∈ f.members c ∧ f.Has m then f.anchor p
      else f.anchor m := by
  by_cases hc : c = .placeholder
  · rw [settle, if_pos hc, if_neg fun h => h.1 hc]
  · rw [settle_eq hc, anchor_announce, anchor_adopt]
    simp only [ne_eq, hc, not_false_eq_true, true_and]

theorem anchor_release : (f.release p c).anchor m
    = if c ≠ .placeholder ∧ m ∈ f.members c ∧ f.Has m then none else f.anchor m := by
  by_cases hc : c = .placeholder
  · rw [release, if_pos hc, if_neg fun h => h.1 hc]
  · have hparent : (f.modify c ({ · with parent := none })).anchor m = f.anchor m :=
      anchor_modify fun _ => rfl
    rw [release_eq hc, anchor_announce, orphan, anchor_anchorBelow, hparent]
    simp only [members_modify_parent, has_modify, ne_eq, hc, not_false_eq_true, true_and]

/-- A node is anchored where it was, or where the node is that a subtree with it was put below. -/
theorem Linked.anchor_link (h : (f.link p i c).Linked) (hp : f.Has p) (hc : f.Has c) :
    (f.link p i c).anchor m
      = if (f.anchor p).isSome ∧ c ≠ .placeholder ∧ m ∈ (f.link p i c).members c then f.anchor p
        else f.anchor m := by
  have hlc : (f.link p i c).Has c := has_link.2 hc
  have hmembers : (f.hold p i c).members c = (f.link p i c).members c :=
    members_congr (by simp [(rehung_link hp i c).size, hold, modify]) (fun n => children_hold hp) c
  have hhas (hm : m ∈ (f.link p i c).members c) : (f.hold p i c).Has m := by
    rw [hold, has_modify, ← has_link (p := p) (i := i) (c := c)]
    exact h.has_of_under hlc ((h.mem_members_iff hlc).1 hm).2
  have hanchor (n : NodeId) : (f.hold p i c).anchor n = f.anchor n := anchor_modify fun _ => rfl
  rw [link_eq, anchor_announceAdded, anchor_recount, anchor_settle, hanchor, hanchor, hmembers,
    ← link_eq]
  refine if_congr ?_ rfl rfl
  rw [and_iff_left_of_imp hhas]
  exact and_left_comm

/-- A node is anchored where it was, or to nothing if a subtree with it was let go. -/
theorem Linked.anchor_unlink (h : (f.unlink p i c).Linked) (hp : f.Has p) (hc : f.Has c) :
    (f.unlink p i c).anchor m
      = if c ≠ .placeholder ∧ m ∈ (f.unlink p i c).members c then none else f.anchor m := by
  let e := f.modify p fun r => { r with children := r.children.eraseIdx i }
  have hunlink : f.unlink p i c = ((e.release p c).recount p).announceRemoved p c := rfl
  have hlc : (f.unlink p i c).Has c := has_unlink.2 hc
  have hmembers : e.members c = (f.unlink p i c).members c := by
    refine members_congr (by simp [(rehung_unlink hp i c).size, e, modify]) (fun n => ?_) c
    rw [(rehung_unlink hp i c).children, children, get_modify]
    by_cases hn : n = p
    · simp [hn, hp, children]
    · simp [hn, children]
  have hhas (hm : m ∈ (f.unlink p i c).members c) : e.Has m := by
    rw [has_modify, ← has_unlink (p := p) (i := i) (c := c)]
    exact h.has_of_under hlc ((h.mem_members_iff hlc).1 hm).2
  have hanchor : e.anchor m = f.anchor m := anchor_modify fun _ => rfl
  rw [hunlink, anchor_announceRemoved, anchor_recount, anchor_release, hanchor, hmembers, ← hunlink]
  refine if_congr ?_ rfl rfl
  rw [and_iff_left_of_imp hhas]

/-! ### Making and freeing nodes -/

theorem anchor_plant {h : Head} : (f.grow { head := h }).2.anchor m = f.anchor m := by
  rw [anchor, get_plant]
  split_ifs with hm
  · rw [hm, anchor_of_not_has f.not_has_next]
  · rfl

theorem anchor_graft {copies : List NodeId} :
    (f.graft n copies).anchor m = if m = f.next then f.anchor n else f.anchor m := by
  rw [graft, anchor, get_claim, get_plant]
  split_ifs <;> rfl

theorem anchor_discard : (f.discard n).anchor m = if m = n then none else f.anchor m := by
  rw [discard, anchor_recount, anchor, get_loosen]
  split_ifs <;> rfl

end MathTree.Forest

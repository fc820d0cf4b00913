import MathTree.Proofs.Forest.Region

/-!
# Listeners

Who hears of a node.  Of the nodes that are there, three writes change the listeners: `hearBelow` and
`unhearBelow`, which reach the nodes of one subtree (`Linked.mem_members_iff`), and `link`, by which
the subtree that is linked in comes to hear what its new parent hears (`Linked.mem_listeners_link`).
No write makes a node list a listener twice.
-/

namespace MathTree

variable {f g : Forest} {m n p c : NodeId} {i : Nat} {l x : ListenerId}

/-! ### Records -/

namespace Record

variable {r : Record}

theorem mem_hear : l ∈ (r.hear x).listeners ↔ l ∈ r.listeners ∨ l = x := by
  unfold hear
  split_ifs with h
  · constructor
    · exact .inl
    · rintro (hl | rfl)
      · exact hl
      · exact h
  · simp

theorem nodup_hear (h : r.listeners.Nodup) : (r.hear x).listeners.Nodup := by
  unfold hear
  split_ifs with hx
  · exact h
  · rw [List.nodup_append]
    refine ⟨h, List.nodup_singleton x, ?_⟩
    rintro y hy z hz rfl
    exact hx (List.mem_singleton.1 hz ▸ hy)

theorem hear_hear (r : Record) (x : ListenerId) : (r.hear x).hear x = r.hear x :=
  if_pos (mem_hear.2 (.inr rfl))

theorem mem_unhear : l ∈ (r.unhear x).listeners ↔ l ∈ r.listeners ∧ l ≠ x := by
  simp [unhear]

theorem nodup_unhear (h : r.listeners.Nodup) : (r.unhear x).listeners.Nodup := h.filter _

theorem unhear_unhear (r : Record) (x : ListenerId) : (r.unhear x).unhear x = r.unhear x := by
  simp [unhear]

end Record

namespace Forest

/-- The listeners of a node. -/
def listeners (f : Forest) (n : NodeId) : List ListenerId := (f.get n).listeners

theorem listeners_of_not_has (h : ¬ f.Has n) : f.listeners n = [] := by
  rw [listeners, get_of_not_has f h]
  rfl

theorem Linked.listeners_placeholder (h : f.Linked) : f.listeners .placeholder = [] := by
  rw [listeners, h.placeholder]
  rfl

/-! ### The nodes of a subtree -/

theorem spineTo_congr (h : ∀ n, g.children n = f.children n) (k : Nat) (n : NodeId) :
    g.spineTo k n = f.spineTo k n := by
  induction k generalizing n with
  | zero => rfl
  | succ k ih =>
    rw [spineTo, spineTo, h]
    congr 1
    exact List.map_congr_left fun c _ => ih c

theorem members_congr (hsize : g.records.size = f.records.size)
    (h : ∀ n, g.children n = f.children n) (n : NodeId) : g.members n = f.members n := by
  rw [members, members, spine, spine, hsize, spineTo_congr h]

theorem Alike.members (h : f.Alike g) (n : NodeId) : g.members n = f.members n :=
  members_congr h.size h.children n

namespace Linked

variable (h : f.Linked)
include h

theorem mem_spine_iff (hn : f.Has n) :
    m ∈ (f.spine n).toList ↔ m = n ∨ ∃ c ∈ f.children n, m ∈ (f.spine c).toList := by
  rw [h.spine_eq hn, Rose.toList_node]
  simp [List.mem_flatten]

/-- With a node its children stand in a subtree. -/
theorem mem_spine_of_mem_children (hn : f.Has n) (hm : m ∈ (f.spine n).toList)
    (hc : c ∈ f.children m) : c ∈ (f.spine n).toList := by
  refine h.below_induction (P := fun n => m ∈ (f.spine n).toList → c ∈ (f.spine n).toList)
    (fun n hn ih hm => ?_) hn hm
  rcases (h.mem_spine_iff hn).1 hm with rfl | ⟨d, hd, hm⟩
  · have hself : c ∈ (f.spine c).toList := (h.mem_spine_iff (h.has_of_mem hc)).2 (.inl rfl)
    exact (h.mem_spine_iff hn).2 (.inr ⟨c, hc, hself⟩)
  · exact (h.mem_spine_iff hn).2 (.inr ⟨d, hd, ih d hd hm⟩)

theorem under_of_mem_spine (hn : f.Has n) (hm : m ∈ (f.spine n).toList) (hne : m ≠ .placeholder) :
    f.Under m n := by
  refine h.below_induction (P := fun n => m ∈ (f.spine n).toList → f.Under m n)
    (fun n hn ih hm => ?_) hn hm
  rcases (h.mem_spine_iff hn).1 hm with rfl | ⟨c, hc, hm⟩
  · exact .refl
  · have hmc := ih c hc hm
    by_cases hph : c = .placeholder
    · -- nothing stands under the placeholder
      obtain rfl | ⟨q, -, hq⟩ := Relation.ReflTransGen.cases_tail hmc
      · exact absurd hph hne
      · exact absurd hph (h.ne_placeholder_of_mem_children (h.mem_of_parent hq))
    · exact hmc.tail ((h.parent_iff hph).2 hc)

theorem has_of_mem_spine (hn : f.Has n) (hm : m ∈ (f.spine n).toList) : f.Has m :=
  of_mem_spineTo (P := f.Has) (fun _ _ _ hc => h.has_of_mem hc) _ hn m hm

/-- The nodes of a subtree are those that stand under its top. -/
theorem mem_members_iff (hn : f.Has n) :
    m ∈ f.members n ↔ m ≠ .placeholder ∧ f.Under m n := by
  simp only [members, List.mem_filter, decide_eq_true_eq]
  constructor
  · rintro ⟨hm, hne⟩
    exact ⟨hne, h.under_of_mem_spine hn hm hne⟩
  · rintro ⟨hne, hm⟩
    refine ⟨?_, hne⟩
    clear hne
    induction hm using Relation.ReflTransGen.head_induction_on with
    | refl => exact (h.mem_spine_iff hn).2 (.inl rfl)
    | head hp _ ih => exact h.mem_spine_of_mem_children hn ih (h.mem_of_parent hp)

theorem has_of_under (hn : f.Has n) (hm : f.Under m n) : f.Has m := by
  obtain rfl | ⟨q, hq, -⟩ := Relation.ReflTransGen.cases_head hm
  · exact hn
  · exact h.has_of_mem (h.mem_of_parent hq)

/-- A child stands in a subtree if it is the top or its parent stands in it. -/
theorem mem_members_iff_of_mem_children (hn : f.Has n) (hc : c ∈ f.children p)
    (hne : c ≠ .placeholder) : c ∈ f.members n ↔ c = n ∨ p ∈ f.members n := by
  have hcp : f.ChildOf c p := (h.parent_iff hne).2 hc
  have hp := h.ne_placeholder_of_mem_children hc
  rw [h.mem_members_iff hn, h.mem_members_iff hn, and_iff_right hne, and_iff_right hp]
  constructor
  · intro hu
    rcases Relation.ReflTransGen.cases_head hu with rfl | ⟨q, hq, hu⟩
    · exact .inl rfl
    · rw [ChildOf, hcp] at hq
      exact .inr (Option.some.inj hq ▸ hu)
  · rintro (rfl | hu)
    · exact .refl
    · exact .head hcp hu

/-- The children of a node of a subtree stand in it too. -/
theorem mem_members_of_mem_children (hn : f.Has n) (hp : p ∈ f.members n) (hc : c ∈ f.children p)
    (hne : c ≠ .placeholder) : c ∈ f.members n :=
  (h.mem_members_iff_of_mem_children hn hc hne).2 (.inr hp)

/-- Of a whole tree, a node and its children stand in it or neither does. -/
theorem mem_members_iff_of_parent_none (hn : f.Has n) (hfree : f.parent n = none)
    (hc : c ∈ f.children p) (hne : c ≠ .placeholder) : c ∈ f.members n ↔ p ∈ f.members n := by
  rw [h.mem_members_iff_of_mem_children hn hc hne]
  exact or_iff_right (h.ne_of_mem_children hfree hc hne)

end Linked

/-! ### Writes that change no listeners -/

theorem listeners_modify {change : Record → Record}
    (h : ∀ r, (change r).listeners = r.listeners) :
    (f.modify n change).listeners m = f.listeners m := by
  rw [listeners, get_modify]
  split_ifs
  · exact h _
  · rfl

theorem listeners_foldl_modify (change : Record → Record)
    (h : ∀ r, (change r).listeners = r.listeners) (ns : List NodeId) (f : Forest) :
    (ns.foldl (fun f n => f.modify n change) f).listeners m = f.listeners m := by
  induction ns generalizing f with
  | nil => rfl
  | cons n ns ih => rw [List.foldl_cons, ih, listeners_modify h]

theorem listeners_anchorBelow (container : Option ContainerId) :
    (f.anchorBelow n container).listeners m = f.listeners m :=
  listeners_foldl_modify ({ · with container := container }) (fun _ => rfl) _ f

theorem listeners_announce (aspect : Aspect) (before after : Datum) :
    (f.announce n aspect before after).listeners m = f.listeners m := rfl

theorem listeners_announceAdded : (f.announceAdded n c).listeners m = f.listeners m := rfl

theorem listeners_announceRemoved : (f.announceRemoved n c).listeners m = f.listeners m := rfl

theorem listeners_announceIfChanged (aspect : Aspect) (before after : Datum) :
    (f.announceIfChanged n aspect before after).listeners m = f.listeners m := by
  unfold announceIfChanged
  split_ifs <;> rfl

theorem listeners_recount : (f.recount n).listeners m = f.listeners m := by
  unfold recount
  split
  · rw [listeners_announceIfChanged]
    exact listeners_modify fun _ => rfl
  · rw [listeners_announceIfChanged, listeners_announceIfChanged]
    exact listeners_modify fun _ => rfl
  · rfl

/-! ### Registering and taking off -/

theorem get_modifyBelow (change : Record → Record) (h : ∀ r, change (change r) = change r) :
    (f.modifyBelow n change).get m
      = if m ∈ f.members n ∧ f.Has m then change (f.get m) else f.get m :=
  get_foldl_modify change h _ f

theorem mem_listeners_hearBelow : l ∈ (f.hearBelow n x).listeners m ↔
    l ∈ f.listeners m ∨ l = x ∧ m ∈ f.members n ∧ f.Has m := by
  rw [listeners, hearBelow, get_modifyBelow _ fun r => r.hear_hear x]
  split_ifs with hm
  · rw [Record.mem_hear]
    simp [hm, listeners]
  · simp [hm, listeners]

theorem nodup_listeners_hearBelow (h : (f.listeners m).Nodup) :
    ((f.hearBelow n x).listeners m).Nodup := by
  rw [listeners, hearBelow, get_modifyBelow _ fun r => r.hear_hear x]
  split_ifs
  · exact Record.nodup_hear h
  · exact h

theorem mem_listeners_unhearBelow : l ∈ (f.unhearBelow n x).listeners m ↔
    l ∈ f.listeners m ∧ ¬ (l = x ∧ m ∈ f.members n) := by
  by_cases hf : f.Has m
  · rw [listeners, unhearBelow, get_modifyBelow _ fun r => r.unhear_unhear x]
    split_ifs with hm
    · rw [Record.mem_unhear]
      simp [hm, listeners]
    · simp only [hf, and_true] at hm
      simp [hm, listeners]
  · rw [listeners_of_not_has hf, listeners_of_not_has]
    · simp
    · rwa [(alike_unhearBelow f n x).has_iff]

theorem nodup_listeners_unhearBelow (h : (f.listeners m).Nodup) :
    ((f.unhearBelow n x).listeners m).Nodup := by
  rw [listeners, unhearBelow, get_modifyBelow _ fun r => r.unhear_unhear x]
  split_ifs
  · exact Record.nodup_unhear h
  · exact h

theorem mem_listeners_foldl_hearBelow (ls : List ListenerId) (f : Forest) :
    l ∈ (ls.foldl (fun f x => f.hearBelow n x) f).listeners m ↔
      l ∈ f.listeners m ∨ l ∈ ls ∧ m ∈ f.members n ∧ f.Has m := by
  induction ls generalizing f with
  | nil => simp
  | cons x ls ih =>
    have halike := alike_hearBelow f n x
    rw [List.foldl_cons, ih, mem_listeners_hearBelow, halike.members, halike.has_iff, List.mem_cons]
    tauto

theorem nodup_listeners_foldl_hearBelow (ls : List ListenerId) (f : Forest)
    (h : (f.listeners m).Nodup) :
    ((ls.foldl (fun f x => f.hearBelow n x) f).listeners m).Nodup := by
  induction ls generalizing f with
  | nil => exact h
  | cons x ls ih => exact ih _ (nodup_listeners_hearBelow h)

/-! ### Linking and unlinking -/

/-- A node with another parent, anchored where that one is if it is anchored. -/
def place (f : Forest) (p c : NodeId) : Forest :=
  let f' := f.modify c ({ · with parent := some p })
  if (f.get p).container.isSome then f'.anchorBelow c (f.get p).container else f'

/-- All that a new child takes over from its parent, before anyone is told. -/
def adopt (f : Forest) (p c : NodeId) : Forest :=
  (f.listeners p).foldl (fun f x => f.hearBelow c x) (f.place p c)

theorem settle_eq (hc : c ≠ .placeholder) :
    f.settle p c = (f.adopt p c).announce c .parent .absent (.node p) := by
  rw [settle, if_neg hc]
  rfl

/-- All that a child that is let go loses, before anyone is told. -/
def orphan (f : Forest) (c : NodeId) : Forest :=
  (f.modify c ({ · with parent := none })).anchorBelow c none

theorem release_eq (hc : c ≠ .placeholder) :
    f.release p c = (f.orphan c).announce c .parent (.node p) .absent := by
  rw [release, if_neg hc]
  rfl

theorem alike_place (f : Forest) (p c : NodeId) :
    (f.modify c ({ · with parent := some p })).Alike (f.place p c) := by
  unfold place
  split_ifs
  · exact alike_anchorBelow _ _ _
  · exact .refl _

theorem listeners_place : (f.place p c).listeners m = f.listeners m := by
  unfold place
  split_ifs
  · rw [listeners_anchorBelow]
    exact listeners_modify fun _ => rfl
  · exact listeners_modify fun _ => rfl

theorem members_place (n : NodeId) : (f.place p c).members n = f.members n := by
  refine ((alike_place f p c).members n).trans (members_congr ?_ ?_ n)
  · simp [modify]
  · intro m
    rw [children, get_modify]
    split_ifs <;> rfl

theorem has_place : (f.place p c).Has m ↔ f.Has m := (alike_place f p c).has_iff.trans (has_modify f _)

theorem mem_listeners_adopt : l ∈ (f.adopt p c).listeners m ↔
    l ∈ f.listeners m ∨ l ∈ f.listeners p ∧ m ∈ f.members c ∧ f.Has m := by
  rw [adopt, mem_listeners_foldl_hearBelow, listeners_place, members_place, has_place]

theorem nodup_listeners_adopt (h : (f.listeners m).Nodup) :
    ((f.adopt p c).listeners m).Nodup := by
  refine nodup_listeners_foldl_hearBelow _ _ ?_
  rwa [listeners_place]

theorem listeners_orphan : (f.orphan c).listeners m = f.listeners m := by
  rw [orphan, listeners_anchorBelow]
  exact listeners_modify fun _ => rfl

theorem listeners_release : (f.release p c).listeners m = f.listeners m := by
  by_cases hc : c = .placeholder
  · rw [release, if_pos hc]
  · rw [release_eq hc, listeners_announce, listeners_orphan]

theorem listeners_unlink : (f.unlink p i c).listeners m = f.listeners m := by
  rw [unlink, listeners_announceRemoved, listeners_recount, listeners_release]
  exact listeners_modify fun _ => rfl

theorem listeners_detach : (f.detach n).listeners m = f.listeners m := by
  obtain hd | ⟨p, i, c, hd⟩ := f.detach_cases n
  · rw [hd]
  · rw [hd, listeners_unlink]

theorem mem_listeners_settle : l ∈ (f.settle p c).listeners m ↔
    l ∈ f.listeners m ∨ c ≠ .placeholder ∧ l ∈ f.listeners p ∧ m ∈ f.members c ∧ f.Has m := by
  by_cases hc : c = .placeholder
  · rw [settle, if_pos hc]
    simp [hc]
  · rw [settle_eq hc, listeners_announce, mem_listeners_adopt]
    simp [hc]

theorem nodup_listeners_settle (h : (f.listeners m).Nodup) :
    ((f.settle p c).listeners m).Nodup := by
  by_cases hc : c = .placeholder
  · rwa [settle, if_pos hc]
  · rw [settle_eq hc, listeners_announce]
    exact nodup_listeners_adopt h

/-- The parent of a new child, which holds it, before the child takes anything over. -/
def hold (f : Forest) (p : NodeId) (i : Nat) (c : NodeId) : Forest :=
  f.modify p fun r => { r with children := r.children.insertIdx i c }

theorem link_eq : f.link p i c = (((f.hold p i c).settle p c).recount p).announceAdded p c := rfl

theorem listeners_hold : (f.hold p i c).listeners m = f.listeners m :=
  listeners_modify fun _ => rfl

theorem children_hold (h : f.Has p) : (f.hold p i c).children n = (f.link p i c).children n := by
  rw [(rehung_link h i c).children, hold, children, get_modify]
  by_cases hn : n = p
  · simp [hn, h, children]
  · simp [hn, children]

/-- Who hears of a node heard of it before, or hears of the node that a subtree with it was put
below. -/
theorem Linked.mem_listeners_link (h : (f.link p i c).Linked) (hp : f.Has p) (hc : f.Has c) :
    l ∈ (f.link p i c).listeners m ↔ l ∈ f.listeners m ∨
      c ≠ .placeholder ∧ l ∈ f.listeners p ∧ m ≠ .placeholder ∧ (f.link p i c).Under m c := by
  have hsize : (f.link p i c).records.size = f.records.size := (rehung_link hp i c).size
  have hlc : (f.link p i c).Has c := by rwa [Has, hsize]
  have hmembers : (f.hold p i c).members c = (f.link p i c).members c :=
    members_congr (by simp [hsize, hold, modify]) (fun n => children_hold hp) c
  have hhas (hm : (f.link p i c).Under m c) : (f.hold p i c).Has m := by
    rw [hold, has_modify, Has, ← hsize]
    exact h.has_of_under hlc hm
  rw [link_eq, listeners_announceAdded, listeners_recount, mem_listeners_settle, listeners_hold,
    listeners_hold, hmembers, h.mem_members_iff hlc, ← link_eq]
  constructor
  · rintro (hl | ⟨hne, hl, ⟨hm, hu⟩, -⟩)
    · exact .inl hl
    · exact .inr ⟨hne, hl, hm, hu⟩
  · rintro (hl | ⟨hne, hl, hm, hu⟩)
    · exact .inl hl
    · exact .inr ⟨hne, hl, ⟨hm, hu⟩, hhas hu⟩

theorem nodup_listeners_link (h : (f.listeners m).Nodup) :
    ((f.link p i c).listeners m).Nodup := by
  rw [link_eq, listeners_announceAdded, listeners_recount]
  refine nodup_listeners_settle ?_
  rwa [listeners_hold]

/-! ### Making and freeing nodes -/

theorem listeners_plant {h : Head} : (f.grow { head := h }).2.listeners m = f.listeners m := by
  rw [listeners, get_plant]
  split_ifs with hm
  · rw [hm, listeners_of_not_has f.not_has_next]
  · rfl

theorem listeners_graft {copies : List NodeId} :
    (f.graft n copies).listeners m = f.listeners m := by
  rw [graft, listeners, get_claim, get_plant]
  split_ifs with hc hm hm
  · rw [hm, listeners_of_not_has f.not_has_next]
  · rfl
  · rw [hm, listeners_of_not_has f.not_has_next]
  · rfl

theorem listeners_discard :
    (f.discard n).listeners m = if m = n then [] else f.listeners m := by
  rw [discard, listeners_recount, listeners, get_loosen]
  split_ifs <;> rfl

end Forest

end MathTree

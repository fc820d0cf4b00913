import MathTree.Proofs.Forest.Listeners

/-!
# Changes that nobody hears of

Within a region of which nobody hears, all writes are silent: no notice is given, no container is
opened or closed, and nobody hears of the region afterwards (`Forest.Hushed`).  There is one rule for
each way of writing, and from these elementary changes of such a region are silent (`Steps.hushed`).
-/

namespace MathTree.Forest

variable {S : NodeId → Prop} {e f g g' : Forest} {n p c : NodeId} {i : Nat} {aspect : Aspect}
  {before after : Datum}

/-! ### Telling nobody -/

theorem announce_of_unheard (hn : f.listeners n = []) : f.announce n aspect before after = f := by
  simp only [announce, show (f.get n).listeners = [] from hn, List.map_nil, Array.append_empty]

theorem announceAdded_of_unheard (hp : f.listeners p = []) : f.announceAdded p c = f := by
  simp only [announceAdded, show (f.get p).listeners = [] from hp, List.map_nil, Array.append_empty]

theorem announceRemoved_of_unheard (hp : f.listeners p = []) : f.announceRemoved p c = f := by
  simp only [announceRemoved, show (f.get p).listeners = [] from hp, List.map_nil,
    Array.append_empty]

/-- Nobody hears of the region, and no notice was given. -/
structure Hushed (S : NodeId → Prop) (f g : Forest) : Prop where
  listeners : ∀ {n : NodeId}, S n → g.listeners n = []
  journal : g.journal = f.journal
  containers : g.containers = f.containers

namespace Hushed

theorem trans (h : e.Hushed S f) (h' : f.Hushed S g) : e.Hushed S g :=
  ⟨h'.listeners, h'.journal.trans h.journal, h'.containers.trans h.containers⟩

variable (h : f.Hushed S g)
include h

/-! ### Ways of writing -/

theorem modify {change : Record → Record}
    (hchange : ∀ r, r.listeners = [] → (change r).listeners = []) :
    f.Hushed S (g.modify n change) where
  listeners {m} hm := by
    rw [Forest.listeners, get_modify]
    split_ifs
    · exact hchange _ (h.listeners hm)
    · exact h.listeners hm
  journal := h.journal
  containers := h.containers

theorem foldl {α : Type} {l : List α} {write : Forest → α → Forest}
    (hwrite : ∀ a g, f.Hushed S g → f.Hushed S (write g a)) : f.Hushed S (l.foldl write g) := by
  induction l generalizing g with
  | nil => exact h
  | cons a l ih => exact ih (hwrite a g h)

theorem anchorBelow (container : Option ContainerId) : f.Hushed S (g.anchorBelow n container) :=
  h.foldl fun _ _ h' => h'.modify fun _ hr => hr

theorem announce (hn : S n) : f.Hushed S (g.announce n aspect before after) :=
  (announce_of_unheard (h.listeners hn)).symm ▸ h

theorem announceAdded (hp : S p) : f.Hushed S (g.announceAdded p c) :=
  (announceAdded_of_unheard (h.listeners hp)).symm ▸ h

theorem announceRemoved (hp : S p) : f.Hushed S (g.announceRemoved p c) :=
  (announceRemoved_of_unheard (h.listeners hp)).symm ▸ h

theorem announceIfChanged (hn : S n) : f.Hushed S (g.announceIfChanged n aspect before after) := by
  unfold Forest.announceIfChanged
  split_ifs
  · exact h
  · exact h.announce hn

theorem recount (hn : S n) : f.Hushed S (g.recount n) := by
  have hset (payload : Payload) : f.Hushed S (g.setPayload n payload) := h.modify fun _ hr => hr
  unfold Forest.recount
  split
  · exact (hset _).announceIfChanged hn
  · exact ((hset _).announceIfChanged hn).announceIfChanged hn
  · exact h

theorem grow {r : Record} (hr : r.listeners = []) : f.Hushed S (g.grow r).2 where
  listeners {m} hm := by
    rw [Forest.listeners, get_grow]
    split_ifs
    · exact hr
    · exact h.listeners hm
  journal := h.journal
  containers := h.containers

theorem claim (children : List NodeId) : f.Hushed S (g.claim p children) :=
  h.foldl fun _ _ h' => h'.modify fun _ hr => hr

/-! ### Links -/

theorem settle (hp : S p) (hc : S c) : f.Hushed S (g.settle p c) := by
  have hparent : f.Hushed S (g.modify c ({ · with parent := some p })) := h.modify fun _ hr => hr
  have hnobody : (g.get p).listeners = [] := h.listeners hp
  unfold Forest.settle
  simp only [hnobody, List.foldl_nil]
  split_ifs
  · exact h
  · exact (hparent.anchorBelow _).announce hc
  · exact hparent.announce hc

theorem release (hc : S c) : f.Hushed S (g.release p c) := by
  have hparent : f.Hushed S (g.modify c ({ · with parent := none })) := h.modify fun _ hr => hr
  unfold Forest.release
  split_ifs
  · exact h
  · exact (hparent.anchorBelow none).announce hc

theorem link (hp : S p) (hc : S c) : f.Hushed S (g.link p i c) := by
  have hhold : f.Hushed S (g.hold p i c) := h.modify fun _ hr => hr
  exact ((hhold.settle hp hc).recount hp).announceAdded hp

theorem unlink (hp : S p) (hc : S c) : f.Hushed S (g.unlink p i c) := by
  have hlet : f.Hushed S (g.modify p fun r => { r with children := r.children.eraseIdx i }) :=
    h.modify fun _ hr => hr
  exact ((hlet.release hc).recount hp).announceRemoved hp

theorem discard (hn : S n) : f.Hushed S (g.discard n) := by
  have horphans : f.Hushed S (((g.children n).filter (· ≠ .placeholder)).foldl
      (fun f d => f.modify d ({ · with parent := none })) g) :=
    h.foldl fun _ _ h' => h'.modify fun _ hr => hr
  have hbare : f.Hushed S (g.loosen n) := horphans.modify fun _ _ => rfl
  exact hbare.recount hn

end Hushed

/-! ### Elementary changes -/

theorem Step.hushed (hs : f.Step S g) (hf : f.Region S) (h : f.Hushed S f) : f.Hushed S g := by
  cases hs with
  | plant => exact h.grow rfl
  | graft => exact (h.grow rfl).claim _
  | link _ _ hSp hSc => exact h.link hSp hSc
  | unlink hSp hi => exact h.unlink hSp (hf.children hSp (List.mem_of_getElem? hi))
  | free hS => exact h.discard hS

theorem Steps.hushed (hs : f.Steps S g) (hf : f.Region S)
    (h : ∀ n, S n → f.listeners n = []) : f.Hushed S g := by
  induction hs with
  | refl => exact ⟨h _, rfl, rfl⟩
  | tail hs' hs ih =>
    exact ih.trans (hs.hushed (Steps.confined hs' hf).region ⟨ih.listeners, rfl, rfl⟩)

end MathTree.Forest

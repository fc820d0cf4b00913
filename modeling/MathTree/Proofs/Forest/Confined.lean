import MathTree.Proofs.Forest.Steps

/-!
# Writes within a region

A `Region` is a set of nodes that no link leaves, with all names that are still free.  What is written
to nodes of a region, and to all that stands below them, stays within it: no other node changes, and it
is a region still (`Forest.Confined`).  There is one rule for each way of writing, and from these an
elementary change is confined to the region that it is made within (`Step.confined`).
-/

namespace MathTree.Forest

variable {S : NodeId → Prop} {e f g g' : Forest} {m n p c : NodeId} {i : Nat}

/-- The set holds the placeholder and all names that are still free, and no link leaves it. -/
structure Region (S : NodeId → Prop) (f : Forest) : Prop where
  placeholder : S .placeholder
  fresh : ∀ {n : NodeId}, ¬ f.Has n → S n
  parent : ∀ {c p : NodeId}, S c → f.parent c = some p → S p
  children : ∀ {p c : NodeId}, S p → c ∈ f.children p → S c

theorem region_univ (f : Forest) : f.Region fun _ => True :=
  ⟨trivial, fun _ => trivial, fun _ _ => trivial, fun _ _ => trivial⟩

theorem Region.of_alike (hf : f.Region S) (h : f.Alike g) : g.Region S where
  placeholder := hf.placeholder
  fresh hn := hf.fresh fun hn' => hn (h.has_iff.2 hn')
  parent hc hp := hf.parent hc (h.parent _ ▸ hp)
  children hp hc := hf.children hp (h.children _ ▸ hc)

theorem Region.of_mem_members (hf : f.Region S) (hn : S n) (hm : m ∈ f.members n) : S m :=
  of_mem_spineTo (fun _ hq _ hc => hf.children hq hc) _ hn m (List.mem_of_mem_filter hm)

/-- All writes were made within a region. -/
structure Confined (S : NodeId → Prop) (f g : Forest) : Prop where
  region : g.Region S
  get : ∀ {n : NodeId}, ¬ S n → g.get n = f.get n

theorem confined_refl (hf : f.Region S) : f.Confined S f := ⟨hf, fun _ => rfl⟩

namespace Confined

theorem trans (h : e.Confined S f) (h' : f.Confined S g) : e.Confined S g :=
  ⟨h'.region, fun hn => (h'.get hn).trans (h.get hn)⟩

variable (h : f.Confined S g)
include h

/-! ### Ways of writing -/

theorem of_records (hg : g'.records = g.records) : f.Confined S g' where
  region := h.region.of_alike (alike_of_records hg)
  get hn := by rw [Forest.get, hg, ← Forest.get, h.get hn]

theorem modify {change : Record → Record} (hn : S n)
    (hparent : ∀ q, (change (g.get n)).parent = some q → S q)
    (hchildren : ∀ d ∈ (change (g.get n)).children, S d) : f.Confined S (g.modify n change) where
  region := {
    placeholder := h.region.placeholder
    fresh := fun hm => h.region.fresh fun hm' => hm ((has_modify g _).2 hm')
    parent := fun {d q} hd hq => by
      rw [Forest.parent, get_modify] at hq
      split_ifs at hq with hdn
      · exact hparent q (hdn.1 ▸ hq)
      · exact h.region.parent hd hq
    children := fun {q d} hq hd => by
      rw [Forest.children, get_modify] at hd
      split_ifs at hd with hqn
      · exact hchildren d (hqn.1 ▸ hd)
      · exact h.region.children hq hd }
  get {m} hm := by
    have hmn : m ≠ n := by
      rintro rfl
      exact hm hn
    rw [get_modify_of_ne _ hmn, h.get hm]

/-- To change no links is no risk. -/
theorem annotate {change : Record → Record} (hn : S n)
    (hchange : ∀ r, (change r).parent = r.parent ∧ (change r).children = r.children) :
    f.Confined S (g.modify n change) := by
  obtain ⟨hparent, hchildren⟩ := hchange (g.get n)
  exact h.modify hn (fun _ hq => h.region.parent hn (hparent.symm.trans hq))
    fun d hd => h.region.children hn (show d ∈ (g.get n).children from hchildren ▸ hd)

theorem rewrite (hn : S n) (change : Head → Head) :
    f.Confined S (g.modify n fun r => { r with head := change r.head }) :=
  h.annotate hn fun _ => ⟨rfl, rfl⟩

theorem unparent (hn : S n) : f.Confined S (g.modify n ({ · with parent := none })) :=
  h.modify hn (fun q hq => absurd hq.symm (Option.some_ne_none q)) fun _ => h.region.children hn

theorem foldl {α : Type} {l : List α} {write : Forest → α → Forest}
    (hwrite : ∀ a ∈ l, ∀ g, f.Confined S g → f.Confined S (write g a)) :
    f.Confined S (l.foldl write g) := by
  induction l generalizing g with
  | nil => exact h
  | cons a l ih =>
    rw [List.forall_mem_cons] at hwrite
    exact ih (hwrite.1 g h) hwrite.2

theorem modifyBelow {change : Record → Record} (hn : S n) (hchange : Spares change) :
    f.Confined S (g.modifyBelow n change) :=
  h.foldl fun _ hm _ h' => h'.annotate (h.region.of_mem_members hn hm) fun r => (hchange r).2

theorem anchorBelow (hn : S n) (k : Option ContainerId) : f.Confined S (g.anchorBelow n k) :=
  h.modifyBelow hn fun _ => ⟨rfl, rfl, rfl⟩

theorem hearBelow (hn : S n) (x : ListenerId) : f.Confined S (g.hearBelow n x) :=
  h.modifyBelow hn (spares_hear x)

theorem unhearBelow (hn : S n) (x : ListenerId) : f.Confined S (g.unhearBelow n x) :=
  h.modifyBelow hn fun _ => ⟨rfl, rfl, rfl⟩

theorem announce (aspect : Aspect) (before after : Datum) :
    f.Confined S (g.announce n aspect before after) := h.of_records rfl

theorem announceAdded : f.Confined S (g.announceAdded p c) := h.of_records rfl

theorem announceRemoved : f.Confined S (g.announceRemoved p c) := h.of_records rfl

theorem announceIfChanged (aspect : Aspect) (before after : Datum) :
    f.Confined S (g.announceIfChanged n aspect before after) := by
  unfold Forest.announceIfChanged
  split_ifs
  · exact h
  · exact h.announce _ _ _

theorem recount (hn : S n) : f.Confined S (g.recount n) := by
  have hset (payload : Payload) : f.Confined S (g.setPayload n payload) :=
    h.rewrite hn ({ · with payload := payload })
  unfold Forest.recount
  split
  · exact (hset _).announceIfChanged _ _ _
  · exact ((hset _).announceIfChanged _ _ _).announceIfChanged _ _ _
  · exact h

/-- A node that is new belongs to the region. -/
theorem grow {r : Record} (hparent : r.parent = none) (hchildren : ∀ d ∈ r.children, S d) :
    f.Confined S (g.grow r).2 where
  region := {
    placeholder := h.region.placeholder
    fresh := fun hm => h.region.fresh fun hm' => hm (has_plant.2 (.inl hm'))
    parent := fun {d q} hd hq => by
      rw [Forest.parent, get_plant] at hq
      split_ifs at hq
      · rw [hparent] at hq
        cases hq
      · exact h.region.parent hd hq
    children := fun {q d} hq hd => by
      rw [Forest.children, get_plant] at hd
      split_ifs at hd
      · exact hchildren d hd
      · exact h.region.children hq hd }
  get {m} hm := by
    have hmg : m ≠ g.next := by
      rintro rfl
      exact hm (h.region.fresh g.not_has_next)
    rw [get_plant, if_neg hmg, h.get hm]

theorem claim {children : List NodeId} (hp : S p) (hchildren : ∀ d ∈ children, S d) :
    f.Confined S (g.claim p children) :=
  h.foldl fun d hd g' h' => by
    have hSd := hchildren d (List.mem_of_mem_filter hd)
    exact h'.modify hSd (fun q hq => Option.some.inj hq ▸ hp) fun _ => h'.region.children hSd

/-! ### Links -/

theorem settle (hp : S p) (hc : S c) : f.Confined S (g.settle p c) := by
  have hparent : f.Confined S (g.modify c ({ · with parent := some p })) :=
    h.modify hc (fun q hq => Option.some.inj hq ▸ hp) fun _ => h.region.children hc
  have hear {g' : Forest} (h' : f.Confined S g') :
      f.Confined S ((g.get p).listeners.foldl (fun f x => f.hearBelow c x) g') :=
    h'.foldl fun x _ _ h'' => h''.hearBelow hc x
  unfold Forest.settle
  dsimp only
  split_ifs
  · exact h
  · exact (hear (hparent.anchorBelow hc _)).announce _ _ _
  · exact (hear hparent).announce _ _ _

theorem release (hc : S c) : f.Confined S (g.release p c) := by
  unfold Forest.release
  split_ifs
  · exact h
  · exact ((h.unparent hc).anchorBelow hc none).announce _ _ _

theorem link (hp : S p) (hc : S c) (hi : i ≤ (g.children p).length) :
    f.Confined S (g.link p i c) := by
  have hhold : f.Confined S (g.modify p fun r => { r with children := r.children.insertIdx i c }) := by
    refine h.modify hp (fun _ => h.region.parent hp) fun d hd => ?_
    rcases (List.mem_insertIdx hi).1 hd with rfl | hd
    · exact hc
    · exact h.region.children hp hd
  exact ((hhold.settle hp hc).recount hp).announceAdded

theorem unlink (hp : S p) (hi : (g.children p)[i]? = some c) : f.Confined S (g.unlink p i c) := by
  have hlet : f.Confined S (g.modify p fun r => { r with children := r.children.eraseIdx i }) :=
    h.modify hp (fun _ => h.region.parent hp) fun _ hd =>
      h.region.children hp (List.mem_of_mem_eraseIdx hd)
  have hc : S c := h.region.children hp (List.mem_of_getElem? hi)
  exact ((hlet.release hc).recount hp).announceRemoved

theorem discard (hn : S n) : f.Confined S (g.discard n) := by
  have horphans : f.Confined S (((g.children n).filter (· ≠ .placeholder)).foldl
      (fun f d => f.modify d ({ · with parent := none })) g) :=
    h.foldl fun _ hd _ h' => h'.unparent (h.region.children hn (List.mem_of_mem_filter hd))
  have hbare : f.Confined S (g.loosen n) :=
    horphans.modify hn (fun q hq => absurd hq.symm (Option.some_ne_none q))
      fun _ hd => absurd hd List.not_mem_nil
  exact hbare.recount hn

end Confined

/-- An elementary change changes nothing outside the region that it is made within. -/
theorem Step.confined (hs : f.Step S g) (hf : f.Region S) : f.Confined S g := by
  have h := confined_refl hf
  cases hs with
  | plant => exact h.grow rfl fun _ hd => absurd hd List.not_mem_nil
  | graft _ _ _ hS => exact (h.grow rfl hS).claim (hf.fresh f.not_has_next) hS
  | link _ _ hSp hSc _ _ _ hi => exact h.link hSp hSc hi
  | unlink hSp hi => exact h.unlink hSp hi
  | free hS => exact h.discard hS

theorem Steps.confined (hs : f.Steps S g) (hf : f.Region S) : f.Confined S g := by
  induction hs with
  | refl => exact confined_refl hf
  | tail _ hs ih => exact ih.trans (hs.confined ih.region)

end MathTree.Forest

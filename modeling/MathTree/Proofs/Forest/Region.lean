import MathTree.Proofs.Forest.Confined
import MathTree.Proofs.Forest.LinkedSteps

/-!
# Regions

Steps within a region keep it one, and an edit that is given nodes of a region only has to be followed
within it.  `Forest.Ready` is what edits start from: a linked forest and a region of it
(`Ready.steps`).  All nodes but those of one whole tree are such a region (`Linked.region_root_ne`),
and so are all nodes that have not been made yet, with the placeholder (`Linked.region_new`).  Here too
is what taking a node away from its parent does (`Linked.rehung_detach`).
-/

namespace MathTree.Forest

variable {S : NodeId → Prop} {f g e : Forest} {m n p q c : NodeId} {i : Nat}

/-! ### Steps -/

theorem Step.has (hs : f.Step S g) (hn : f.Has n) : g.Has n := by
  cases hs with
  | plant => exact has_plant.2 (.inl hn)
  | graft => exact has_graft.2 (.inl hn)
  | link hp => rwa [Has, (rehung_link hp _ _).size]
  | unlink _ hi => rwa [Has, (rehung_unlink (has_of_getElem?_children hi) _ _).size]
  | free => exact has_discard.2 hn

theorem Rehung.head_cases {l : List NodeId} {o : Option NodeId} (h : f.Rehung g p l c o)
    (n : NodeId) : ∃ kinds, g.head n = f.head n ∨ g.head n = (f.head n).recounted kinds := by
  refine ⟨l.map f.kind, ?_⟩
  rw [h.head]
  split_ifs with hn
  · exact .inr (hn ▸ rfl)
  · exact .inl rfl

theorem Rehung.kind {l : List NodeId} {o : Option NodeId} (h : f.Rehung g p l c o) (n : NodeId) :
    g.kind n = f.kind n := by
  obtain ⟨kinds, hn | hn⟩ := h.head_cases n <;> rw [Forest.kind, hn] <;> rfl

/-- Of what a node says of itself, a step changes its counts at most. -/
theorem Step.head (hs : f.Step S g) (hn : f.Has n) :
    ∃ kinds, g.head n = f.head n ∨ g.head n = (f.head n).recounted kinds := by
  cases hs with
  | plant =>
    refine ⟨[], .inl ?_⟩
    rw [head_plant, if_neg (ne_next_of_has hn)]
  | graft =>
    refine ⟨[], .inl ?_⟩
    rw [head_graft, if_neg (ne_next_of_has hn)]
  | link hp => exact (rehung_link hp _ _).head_cases n
  | unlink _ hi => exact (rehung_unlink (has_of_getElem?_children hi) _ _).head_cases n
  | free =>
    refine ⟨[], ?_⟩
    rw [head_discard]
    split_ifs with h
    · exact .inr (h ▸ rfl)
    · exact .inl rfl

/-- What counting does not change of a head, a step does not change. -/
theorem Step.head_congr {α : Type} {φ : Head → α} (hφ : ∀ h kinds, φ (h.recounted kinds) = φ h)
    (hs : f.Step S g) (hn : f.Has n) : φ (g.head n) = φ (f.head n) := by
  obtain ⟨kinds, h | h⟩ := hs.head hn
  · rw [h]
  · rw [h, hφ]

theorem Step.kind (hs : f.Step S g) (hn : f.Has n) : g.kind n = f.kind n :=
  hs.head_congr Head.kind_recounted hn

theorem Step.form (hs : f.Step S g) (hn : f.Has n) : (g.head n).form = (f.head n).form :=
  hs.head_congr Head.form_recounted hn

theorem Steps.single (hs : f.Step S g) : f.Steps S g := Relation.ReflTransGen.single hs

theorem Steps.trans (h : e.Steps S f) (h' : f.Steps S g) : e.Steps S g :=
  Relation.ReflTransGen.trans h h'

theorem Steps.has (hs : f.Steps S g) (hn : f.Has n) : g.Has n := by
  induction hs with
  | refl => exact hn
  | tail _ hs ih => exact hs.has ih

theorem Steps.head_congr {α : Type} {φ : Head → α} (hφ : ∀ h kinds, φ (h.recounted kinds) = φ h)
    (hs : f.Steps S g) (hn : f.Has n) : φ (g.head n) = φ (f.head n) := by
  induction hs with
  | refl => rfl
  | tail h hs ih => rw [hs.head_congr hφ (Steps.has h hn), ih]

theorem Steps.kind (hs : f.Steps S g) (hn : f.Has n) : g.kind n = f.kind n :=
  hs.head_congr Head.kind_recounted hn

theorem Steps.form (hs : f.Steps S g) (hn : f.Has n) : (g.head n).form = (f.head n).form :=
  hs.head_congr Head.form_recounted hn

/-- A forest to edit within a region. -/
structure Ready (S : NodeId → Prop) (f : Forest) : Prop where
  linked : f.Linked
  region : f.Region S

theorem Linked.ready (h : f.Linked) : f.Ready fun _ => True := ⟨h, f.region_univ⟩

theorem Ready.step (hf : f.Ready S) (hs : f.Step S g) : g.Ready S :=
  ⟨hf.linked.step hs, (hs.confined hf.region).region⟩

theorem Ready.steps (hf : f.Ready S) (hs : f.Steps S g) : g.Ready S := by
  induction hs with
  | refl => exact hf
  | tail _ hs ih => exact ih.step hs

/-- Whether a node has been made and belongs to a region. -/
def Within (S : NodeId → Prop) (f : Forest) (n : NodeId) : Prop := f.Has n ∧ S n

/-! ### Whole trees -/

/-- The node at the top of the tree that a node stands in. -/
def root (f : Forest) (n : NodeId) : NodeId := (f.lineage n).getLastD n

theorem root_of_parent_none (hn : f.parent n = none) : f.root n = n := by
  rw [root, Linked.lineage_of_parent_none hn]
  rfl

theorem under_root (f : Forest) (n : NodeId) : f.Under n (f.root n) := by
  have hmem : f.root n ∈ n :: f.lineage n := List.getLastD_mem_cons
  rcases List.mem_cons.1 hmem with hn | hn
  · rw [hn]
    exact .refl
  · exact Linked.under_of_mem_lineageTo hn

namespace Linked

variable (h : f.Linked)
include h

theorem root_of_parent (hp : f.parent c = some p) : f.root c = f.root p := by
  have hc := h.has_of_mem (h.mem_of_parent hp)
  obtain ⟨l, hl⟩ : ∃ l, f.lineage p = p :: l := by
    unfold lineage
    cases f.records.size <;> exact ⟨_, rfl⟩
  rw [root, root, h.lineage_of_parent hc hp, hl, List.getLastD_cons, List.getLastD_cons,
    List.getLastD_cons]

/-- What stands under a node stands in the same tree. -/
theorem root_of_under (hm : f.Under m n) : f.root m = f.root n := by
  induction hm using Relation.ReflTransGen.head_induction_on with
  | refl => rfl
  | head hp _ ih => rw [h.root_of_parent hp, ih]

theorem has_root (hn : f.Has n) : f.Has (f.root n) := by
  obtain hr | ⟨q, -, hq⟩ := Relation.ReflTransGen.cases_tail (f.under_root n)
  · rwa [hr]
  · exact h.has_of_parent hq

/-- Nothing stands under the placeholder. -/
theorem root_ne_placeholder (hne : n ≠ .placeholder) : f.root n ≠ .placeholder := by
  intro hr
  obtain hn | ⟨q, -, hq⟩ := Relation.ReflTransGen.cases_tail (f.under_root n)
  · exact hne (hn ▸ hr)
  · exact h.ne_placeholder_of_mem_children (h.mem_of_parent hq) hr

/-- All nodes but those of one whole tree. -/
theorem region_root_ne (hn : f.Has n) (hne : n ≠ .placeholder) :
    f.Region fun m => f.root m ≠ f.root n := by
  have hph : f.root .placeholder ≠ f.root n := by
    rw [root_of_parent_none h.parent_placeholder]
    exact (h.root_ne_placeholder hne).symm
  refine ⟨hph, fun {m} hm => ?_, fun {c p} hc hp => ?_, fun {p c} hp hc => ?_⟩
  · have hparent : f.parent m = none := by
      rw [Forest.parent, get_of_not_has f hm]
      rfl
    rw [root_of_parent_none hparent]
    rintro rfl
    exact hm (h.has_root hn)
  · rwa [← h.root_of_parent hp]
  · by_cases hc' : c = .placeholder
    · exact hc' ▸ hph
    · rwa [h.root_of_parent ((h.parent_iff hc').2 hc)]

end Linked

/-! ### New nodes -/

/-- Whether a node is the placeholder or has not been made yet. -/
def New (f : Forest) (n : NodeId) : Prop := n = .placeholder ∨ ¬ f.Has n

theorem New.ne (hc : f.New c) (hp : f.Has p) (hne : p ≠ .placeholder) : c ≠ p := by
  rintro rfl
  exact hc.elim hne fun hnot => hnot hp

theorem Linked.region_new (hf : f.Linked) : f.Region f.New where
  placeholder := .inl rfl
  fresh := .inr
  parent {c p} hc hp := by
    rcases hc with rfl | hc
    · rw [hf.parent_placeholder] at hp
      cases hp
    · exact absurd (hf.has_of_mem (hf.mem_of_parent hp)) hc
  children {p c} hp hc := by
    rcases hp with rfl | hp
    · rw [hf.children_placeholder] at hc
      cases hc
    · rw [children, get_of_not_has f hp] at hc
      cases hc

theorem Linked.ready_new (hf : f.Linked) : f.Ready f.New := ⟨hf, hf.region_new⟩

/-! ### Taking a node away from its parent -/

theorem detach_of_parent_none (hn : f.parent n = none) : f.detach n = f := by
  simp [Forest.detach, hn]

/-- To take a node away from its parent is nothing, or to let go of a child. -/
theorem detach_cases (f : Forest) (n : NodeId) :
    f.detach n = f ∨ ∃ p i c, f.detach n = f.unlink p i c := by
  cases hp : f.parent n with
  | none => exact .inl (detach_of_parent_none hp)
  | some p =>
    cases hu : (f.positionOf p n).bind (f.unlinkAt? p) with
    | none =>
      left
      simp only [detach, hp, hu]
    | some u =>
      obtain ⟨i, -, hi⟩ := Option.bind_eq_some_iff.1 hu
      obtain ⟨c, -, rfl⟩ := Option.map_eq_some_iff.1 hi
      refine .inr ⟨p, i, c, ?_⟩
      simp only [detach, hp, hu]

theorem has_link : (f.link p i c).Has n ↔ f.Has n := by
  have hsize : (f.link p i c).records.size = f.records.size := by
    show ((Forest.settle _ p c).recount p).records.size = _
    rw [size_recount, (reparented_settle _ p c).size]
    simp [modify]
  rw [Has, hsize, Has]

theorem has_unlink : (f.unlink p i c).Has n ↔ f.Has n := by
  have hsize : (f.unlink p i c).records.size = f.records.size := by
    show ((Forest.release _ p c).recount p).records.size = _
    rw [size_recount, (reparented_release _ p c).size]
    simp [modify]
  rw [Has, hsize, Has]

theorem has_detach : (f.detach n).Has m ↔ f.Has m := by
  obtain hd | ⟨p, i, c, hd⟩ := f.detach_cases n
  · rw [hd]
  · rw [hd, has_unlink]

section detach

variable (h : f.Linked)
include h

theorem Linked.detach_of_parent (hn : f.parent n = some p) :
    ∃ i, (f.children p)[i]? = some n ∧ (f.children p).eraseIdx i = (f.children p).erase n ∧
      f.detach n = f.unlink p i n := by
  cases hi : f.positionOf p n with
  | none => exact absurd (h.mem_of_parent hn) (List.idxOf?_eq_none_iff.1 hi)
  | some i =>
    obtain ⟨hlt, hget, -⟩ := List.idxOf?_eq_some_iff.1 hi
    have hn' : (f.children p)[i]? = some n := List.getElem?_eq_some_iff.2 ⟨hlt, hget⟩
    refine ⟨i, hn', ?_, ?_⟩
    · rw [List.erase_eq_eraseIdx, show (f.children p).idxOf? n = some i from hi]
    · simp [Forest.detach, hn, hi, unlinkAt?, hn']

theorem Linked.rehung_detach (hn : f.parent n = some p) :
    f.Rehung (f.detach n) p ((f.children p).erase n) n none := by
  obtain ⟨i, -, he, hd⟩ := h.detach_of_parent hn
  rw [hd, ← he]
  exact rehung_unlink (h.has_of_parent hn) i n

theorem Linked.parent_detach : (f.detach n).parent m = if m = n then none else f.parent m := by
  cases hn : f.parent n with
  | none =>
    rw [detach_of_parent_none hn]
    split_ifs with hm
    · rw [hm, hn]
    · rfl
  | some p =>
    have hne := h.ne_placeholder_of_parent hn
    rw [(h.rehung_detach hn).parent]
    simp only [hne, ne_eq, not_false_eq_true, h.has_of_mem (h.mem_of_parent hn), and_self, and_true]

theorem Linked.children_detach : (f.detach n).children m
    = if f.parent n = some m then (f.children m).erase n else f.children m := by
  cases hn : f.parent n with
  | none => rw [detach_of_parent_none hn, if_neg (by simp)]
  | some p =>
    rw [(h.rehung_detach hn).children]
    simp only [Option.some.injEq, eq_comm (a := p)]
    split_ifs with hm
    · rw [hm]
    · rfl

theorem Linked.children_detach_sublist : ((f.detach n).children m).Sublist (f.children m) := by
  rw [h.children_detach]
  split_ifs
  · exact List.erase_sublist
  · exact .refl _

theorem Linked.form_detach : ((f.detach n).head m).form = (f.head m).form := by
  cases hn : f.parent n with
  | none => rw [detach_of_parent_none hn]
  | some p =>
    rw [(h.rehung_detach hn).head]
    split_ifs with hm
    · simp [hm]
    · rfl

theorem Linked.isLeaf_detach : ((f.detach n).head m).isLeaf = (f.head m).isLeaf := by
  rw [Head.isLeaf, h.form_detach, Head.isLeaf]

theorem Linked.under_of_detach (hab : (f.detach n).Under p q) : f.Under p q := by
  refine under_mono (fun a b hb => ?_) hab
  rw [h.parent_detach] at hb
  split_ifs at hb
  exact hb

end detach

theorem Ready.steps_detach (hf : f.Ready S) (hn : S n) : f.Steps S (f.detach n) := by
  cases hp : f.parent n with
  | none =>
    rw [detach_of_parent_none hp]
    exact .refl
  | some p =>
    obtain ⟨i, hi, -, hd⟩ := hf.linked.detach_of_parent hp
    rw [hd]
    exact .single (.unlink (hf.region.parent hn hp) hi)

theorem Linked.detach (hf : f.Linked) (n : NodeId) : (f.detach n).Linked :=
  hf.steps (hf.ready.steps_detach trivial)

end MathTree.Forest

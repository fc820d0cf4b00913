import MathTree.Proofs.Edit.Moves
import MathTree.Forest.Compose

/-!
# Copying

A copy never fails and touches no node that was there before.  It is made from the bottom up: each
node is grafted above the copies of its children, which nothing holds until then
(`Edit.copySpine_spec`, by induction on the spine).  What has been copied reads as what it was made of
and stays so while more nodes are made (`Forest.Replica`).
-/

namespace MathTree

open Forest

variable {S : NodeId → Prop} {e f g : Forest} {m n c d : NodeId}

namespace Forest

/-- Every node is as it was, and nothing has been told. -/
structure Untouched (f g : Forest) : Prop where
  has : ∀ {n : NodeId}, f.Has n → g.Has n
  get : ∀ {n : NodeId}, f.Has n → g.get n = f.get n
  containers : g.containers = f.containers
  journal : g.journal = f.journal

theorem Untouched.refl (f : Forest) : f.Untouched f := ⟨id, fun _ => rfl, rfl, rfl⟩

theorem Untouched.trans (h : e.Untouched f) (h' : f.Untouched g) : e.Untouched g where
  has hn := h'.has (h.has hn)
  get hn := (h'.get (h.has hn)).trans (h.get hn)
  containers := h'.containers.trans h.containers
  journal := h'.journal.trans h.journal

theorem claim_eq (f : Forest) (p : NodeId) (children : List NodeId) :
    (f.claim p children).containers = f.containers ∧
      (f.claim p children).journal = f.journal := by
  unfold claim
  induction children.filter (· ≠ .placeholder) generalizing f with
  | nil => exact ⟨rfl, rfl⟩
  | cons c l ih => exact ih (f.modify c _)

/-- Of the nodes that were there, a graft only writes to the copies below it. -/
theorem untouched_graft {copies : List NodeId} (h : e.Untouched f)
    (hcopies : ∀ c ∈ copies, c ≠ .placeholder → ¬ e.Has c) :
    e.Untouched (f.graft n copies) where
  has hm := has_graft.2 (.inl (h.has hm))
  get {m} hm := by
    rw [graft, get_claim, if_neg fun hc => hcopies m hc.1.1 hc.1.2 hm, get_plant,
      if_neg (ne_next_of_has (h.has hm)), h.get hm]
  containers := (claim_eq _ _ _).1.trans h.containers
  journal := (claim_eq _ _ _).2.trans h.journal

theorem Mirrors.has (h : f.Mirrors c n) (hph : f.Has .placeholder) : f.Has c := by
  unfold Mirrors at h
  split_ifs at h
  · exact h ▸ hph
  · exact h.2.1

/-- A copy is the placeholder only of the placeholder. -/
theorem Mirrors.eq_placeholder_iff (h : f.Mirrors c n) : c = .placeholder ↔ n = .placeholder := by
  unfold Mirrors at h
  split_ifs at h with hn
  · exact iff_of_true h hn
  · exact iff_of_false h.1 hn

theorem Mirrors.parent_eq_none (h : f.Mirrors c n) (hf : f.Linked) : f.parent c = none := by
  unfold Mirrors at h
  split_ifs at h
  · rw [h, hf.parent_placeholder]
  · exact h.2.2.1

theorem Mirrors.untouched (h : f.Mirrors c n) (hn : f.Has n) (hg : f.Untouched g) :
    g.Mirrors c n := by
  unfold Mirrors at *
  split_ifs with hne
  · rwa [if_pos hne] at h
  · rw [if_neg hne] at h
    obtain ⟨hc, hhas, hrest⟩ := h
    refine ⟨hc, hg.has hhas, ?_⟩
    rwa [parent, head, head, hg.get hhas, hg.get hn]

/-! ### Copies of all that stands below a node -/

/-- Every node is as it was, but that it may have another parent. -/
structure Retains (f g : Forest) : Prop where
  has : ∀ {n : NodeId}, f.Has n → g.Has n
  get : ∀ {n : NodeId}, f.Has n → g.get n = { f.get n with parent := g.parent n }

theorem Untouched.retains (h : f.Untouched g) : f.Retains g where
  has := h.has
  get hn := by rw [parent, h.get hn]

theorem retains_graft {copies : List NodeId} : f.Retains (f.graft n copies) where
  has hm := has_graft.2 (.inl hm)
  get {m} hm := by
    rw [parent, graft, get_claim, get_plant, if_neg (ne_next_of_has hm)]
    split_ifs <;> rfl

theorem Retains.keeps {P : NodeId → Prop} (h : f.Retains g) : f.Keeps P g where
  has := h.has
  children hn _ := by
    rw [children, h.get hn]
    rfl
  head hn _ := by
    rw [head, h.get hn]
    rfl

theorem Retains.spine (h : f.Retains g) (hf : f.Linked) (hg : g.Linked) (hn : f.Has n) :
    g.spine n = f.spine n :=
  h.keeps.spine (P := fun _ => True) hf hg (fun _ _ _ _ => trivial) hn trivial

theorem Retains.tree (h : f.Retains g) (hf : f.Linked) (hg : g.Linked) (hn : f.Has n) :
    g.tree n = f.tree n :=
  h.keeps.tree_of_has hf hg hn

/-- Whether a node is a copy of one that was there.  It may be held by another copy. -/
structure Clone (f g : Forest) (n c : NodeId) : Prop where
  has : g.Has c
  placeholder : c = .placeholder ↔ n = .placeholder
  fresh : c ≠ .placeholder → ¬ f.Has c
  container : (g.get c).container = (f.get n).container
  listeners : (g.get c).listeners = []

theorem Clone.later {g' : Forest} (h : f.Clone g n c) (hg : g.Retains g') : f.Clone g' n c where
  has := hg.has h.has
  placeholder := h.placeholder
  fresh := h.fresh
  container := by
    rw [hg.get h.has]
    exact h.container
  listeners := by
    rw [hg.get h.has]
    exact h.listeners

theorem Clone.earlier (h : f.Clone g n c) (he : e.Retains f) (hn : e.Has n) : e.Clone g n c where
  has := h.has
  placeholder := h.placeholder
  fresh hne hc := h.fresh hne (he.has hc)
  container := by
    have hcontainer := h.container
    rw [he.get hn] at hcontainer
    exact hcontainer
  listeners := h.listeners

/-- Whether a node reads as another that was there, and all that stands below it are copies of what
stands below that one. -/
structure Replica (f g : Forest) (n c : NodeId) : Prop where
  has : g.Has c
  tree : g.tree c = f.tree n
  clones : List.Forall₂ (f.Clone g) (f.spine n).toList (g.spine c).toList

/-- Only the placeholder is a copy of the placeholder. -/
theorem Replica.eq_placeholder_iff (h : f.Replica g n c) (hf : f.Linked) (hg : g.Linked)
    (hn : f.Has n) : c = .placeholder ↔ n = .placeholder := by
  have hclones := h.clones
  rw [hf.spine_eq hn, hg.spine_eq h.has, Rose.toList_node, Rose.toList_node,
    List.forall₂_cons] at hclones
  exact hclones.1.placeholder

/-- A copy is a copy still when other nodes have been made. -/
theorem Replica.later {g' : Forest} (h : f.Replica g n c) (hg : g.Linked) (hg' : g'.Linked)
    (hgg : g.Retains g') : f.Replica g' n c where
  has := hgg.has h.has
  tree := (hgg.tree hg hg' h.has).trans h.tree
  clones := by
    rw [hgg.spine hg hg' h.has]
    exact h.clones.imp fun _ _ hclone => hclone.later hgg

/-- A copy of a node is a copy of what the node was before other nodes were made. -/
theorem Replica.earlier (h : f.Replica g n c) (he : e.Linked) (hf : f.Linked) (hef : e.Retains f)
    (hn : e.Has n) : e.Replica g n c where
  has := h.has
  tree := h.tree.trans (hef.tree he hf hn)
  clones := by
    have hclones := h.clones
    rw [hef.spine he hf hn] at hclones
    have hhas (m : NodeId) (hm : m ∈ (e.spine n).toList) : e.Has m := he.has_of_mem_spine hn hm
    exact ((List.forall₂_and_left _ _).2 ⟨hhas, hclones⟩).imp fun _ _ hclone =>
      hclone.2.earlier hef hclone.1

/-- The placeholder is its own copy. -/
theorem Linked.replica_placeholder (h : f.Linked) : f.Replica f .placeholder .placeholder where
  has := h.has_placeholder
  tree := rfl
  clones := by
    have hspine : f.spine .placeholder = .node .placeholder [] := by
      rw [h.spine_eq h.has_placeholder, h.children_placeholder, List.map_nil]
    rw [hspine]
    refine .cons ⟨h.has_placeholder, Iff.rfl, fun hne => absurd rfl hne, rfl, ?_⟩ .nil
    rw [h.placeholder]
    rfl

theorem get_graft_next {copies : List NodeId} (hcopies : ∀ c ∈ copies, f.Has c) :
    (f.graft n copies).get f.next =
      { head := f.head n, container := (f.get n).container, children := copies } := by
  have hnext : f.next ∉ copies := fun hc => f.not_has_next (hcopies _ hc)
  rw [graft, get_claim, if_neg fun h => hnext h.1.1, get_plant, if_pos rfl]

/-- A node above copies of its children is a copy with all that stands below it. -/
theorem replica_graft {copies : List NodeId} (hf : f.Linked) (hg : g.Linked)
    (hgraft : (g.graft n copies).Linked) (h : f.Untouched g) (hn : f.Has n) (hne : n ≠ .placeholder)
    (hcopies : ∀ c ∈ copies, g.Has c)
    (hreplicas : List.Forall₂ (f.Replica g) (f.children n) copies) :
    f.Replica (g.graft n copies) n g.next := by
  have hnext : (g.graft n copies).Has g.next := has_graft.2 (.inr rfl)
  have hget := get_graft_next (n := n) hcopies
  have hbelow : List.Forall₂ (f.Replica (g.graft n copies)) (f.children n) copies :=
    hreplicas.imp fun _ _ hr => hr.later hg hgraft retains_graft
  have hchildren : (g.graft n copies).children g.next = copies := by rw [children, hget]
  refine ⟨hnext, ?_, ?_⟩
  · have hhead : (g.graft n copies).head g.next = f.head n := by
      rw [head, hget, head, h.get hn, head]
    have htrees : copies.map (g.graft n copies).tree = (f.children n).map f.tree := by
      rw [← List.forall₂_eq_eq_eq, List.forall₂_map_left_iff, List.forall₂_map_right_iff]
      exact hbelow.flip.imp fun _ _ hr => hr.tree
    rw [hgraft.tree_eq hnext, hf.tree_eq hn, hhead, hchildren, htrees]
  · rw [hf.spine_eq hn, hgraft.spine_eq hnext, hchildren, Rose.toList_node, Rose.toList_node,
      List.map_map, List.map_map]
    refine .cons ⟨hnext, ?_, fun _ hc => g.not_has_next (h.has hc), ?_, ?_⟩ (List.rel_flatten ?_)
    · exact iff_of_false (ne_next_of_has hg.has_placeholder).symm hne
    · rw [hget, h.get hn]
    · rw [hget]
    · rw [List.forall₂_map_left_iff, List.forall₂_map_right_iff]
      exact hbelow.imp fun _ _ hr => hr.clones

/-- A node is now a new copy of another, above copies of its children, and no other node has been
touched. -/
structure CopiedTo (S : NodeId → Prop) (f g : Forest) (n c : NodeId) : Prop where
  moves : f.Moves S g
  untouched : f.Untouched g
  mirrors : g.Mirrors c n
  fresh : c ≠ .placeholder → ¬ f.Has c
  replica : f.Replica g n c
  children : List.Forall₂ (f.Replica g) (f.children n) (g.children c)

/-- Some nodes are now new copies of others, each its own, and no other node has been touched. -/
structure AllCopiedTo (S : NodeId → Prop) (f g : Forest) (l copies : List NodeId) : Prop where
  moves : f.Moves S g
  untouched : f.Untouched g
  mirrors : List.Forall₂ g.Mirrors copies l
  fresh : ∀ c ∈ copies, c ≠ .placeholder → ¬ f.Has c
  once : ∀ c : NodeId, c ≠ .placeholder → copies.count c ≤ 1
  replicas : List.Forall₂ (f.Replica g) l copies

/-- All copies have been made. -/
theorem AllCopiedTo.has {l copies : List NodeId} (h : f.AllCopiedTo S g l copies)
    (hph : g.Has .placeholder) : ∀ c ∈ copies, g.Has c := by
  intro c hc
  obtain ⟨n, -, hn⟩ := exists_of_mirrors h.mirrors hc
  exact hn.has hph

theorem AllCopiedTo.cons {l copies : List NodeId} (h : e.CopiedTo S f n c) (he : e.Ready S)
    (hn : e.Has n) (hl : ∀ m ∈ l, e.Has m) (h' : f.AllCopiedTo S g l copies) :
    e.AllCopiedTo S g (n :: l) (c :: copies) where
  moves := h.moves.trans h'.moves
  untouched := h.untouched.trans h'.untouched
  mirrors := .cons (h.mirrors.untouched (h.untouched.has hn) h'.untouched) h'.mirrors
  fresh d hd hne := by
    rcases List.mem_cons.1 hd with rfl | hd
    · exact h.fresh hne
    · exact fun he => h'.fresh d hd hne (h.untouched.has he)
  once d hne := by
    rw [List.count_cons]
    split_ifs with hd
    · -- the first copy was there when the others were made
      have hc : d ∉ copies := fun hd' => h'.fresh d hd' hne (beq_iff_eq.1 hd ▸ h.replica.has)
      exact Nat.le_of_eq (by rw [List.count_eq_zero.2 hc])
    · exact h'.once d hne
  replicas := by
    have hf := he.moves h.moves
    have hg := hf.moves h'.moves
    refine .cons (h.replica.later hf.linked hg.linked h'.untouched.retains) ?_
    exact ((List.forall₂_and_left _ _).2 ⟨hl, h'.replicas⟩).imp fun _ _ hr =>
      hr.2.earlier he.linked hf.linked h.untouched.retains hr.1

theorem mirrors_graft {copies : List NodeId} (hn : f.Has n) (hne : n ≠ .placeholder)
    (hph : f.Has .placeholder) (hcopies : ∀ c ∈ copies, f.Has c) :
    (f.graft n copies).Mirrors f.next n := by
  have hget := get_graft_next (n := n) hcopies
  rw [Mirrors, if_neg hne]
  refine ⟨(ne_next_of_has hph).symm, has_graft.2 (.inr rfl), ?_, ?_, ?_, ?_⟩
  · rw [parent, hget]
  · rw [head, hget, head_graft, if_neg (ne_next_of_has hn)]
  · rw [hget, graft, get_claim, get_plant, if_neg (ne_next_of_has hn)]
    split_ifs <;> rfl
  · rw [hget]

end Forest

namespace Edit

theorem run_copyNode {copies : List NodeId} :
    (copyNode n copies).run f = (.ok f.next, f.graft n copies) := rfl

/-- Nodes are copied one by one if each can be copied whenever its turn comes. -/
theorem mapM_copy_spec {l : List NodeId} {k : NodeId → Edit NodeId} (hl : ∀ n ∈ l, f.Has n)
    (hf : f.Ready S)
    (hcopy : ∀ n ∈ l, ∀ g, g.Ready S → f.Untouched g →
      ∃ c g', (k n).run g = (.ok c, g') ∧ g.CopiedTo S g' n c) :
    ∃ copies g, (l.mapM k).run f = (.ok copies, g) ∧ f.AllCopiedTo S g l copies := by
  induction l generalizing f with
  | nil => exact ⟨[], f, rfl, .refl, .refl f, .nil, by simp, by simp, .nil⟩
  | cons n l ih =>
    obtain ⟨c, g, hrun, hc⟩ := hcopy n List.mem_cons_self f hf (.refl f)
    obtain ⟨copies, g', hrun', hcs⟩ := ih
      (fun m hm => hc.untouched.has (hl m (List.mem_cons_of_mem _ hm))) (hf.moves hc.moves)
      fun m hm g' hg' hug' => hcopy m (List.mem_cons_of_mem _ hm) g' hg' (hc.untouched.trans hug')
    refine ⟨c :: copies, g', ?_, hcs.cons hc hf (hl n List.mem_cons_self)
      fun m hm => hl m (List.mem_cons_of_mem _ hm)⟩
    simp only [List.mapM_cons, run_bind, hrun, hrun', run_pure]

theorem copySpine_node (n : NodeId) (ts : List (Rose NodeId)) : copySpine (.node n ts)
    = if n = .placeholder then pure n else ts.mapM copySpine >>= copyNode n := by
  rw [copySpine, Rose.fold_node]
  simp only [List.mapM_map, Function.comp_def]

/-- The spine was taken in a forest whose nodes are still what they were. -/
theorem copySpine_spec (he : e.Linked) (hf : f.Ready S) (hef : e.Untouched f) (hn : e.Has n) :
    ∃ c g, (copySpine (e.spine n)).run f = (.ok c, g) ∧ f.CopiedTo S g n c := by
  generalize ht : e.spine n = t
  induction t using Rose.induction generalizing n f with
  | node a ts ih =>
    rw [he.spine_eq hn] at ht
    obtain ⟨rfl, rfl⟩ := Rose.node.inj ht
    rw [copySpine_node, List.mapM_map]
    by_cases hne : n = .placeholder
    · rw [if_pos hne]
      refine ⟨n, f, rfl, .refl, .refl f, ?_, fun h => absurd hne h, ?_, ?_⟩
      · rwa [Mirrors, if_pos hne]
      · exact hne ▸ hf.linked.replica_placeholder
      · rw [hne, hf.linked.children_placeholder]
        exact .nil
    · rw [if_neg hne]
      have hhas (c : NodeId) (hc : c ∈ e.children n) : f.Has c := hef.has (he.has_of_mem hc)
      obtain ⟨copies, g, hrun, hcs⟩ := mapM_copy_spec (k := copySpine ∘ e.spine)
        hhas hf fun c hc g hg hfg =>
          ih _ (List.mem_map_of_mem hc) hg (hef.trans hfg) (he.has_of_mem hc) rfl
      have hg := hf.moves hcs.moves
      have hfn := hef.has hn
      have hgc := hcs.has hg.linked.has_placeholder
      have hfe : f.children n = e.children n := by rw [children, hef.get hn, children]
      have hgf : g.children n = f.children n := by rw [children, hcs.untouched.get hfn, children]
      have hgraft : g.Move S (g.graft n copies) := by
        refine .graft hne ?_ (hcs.once _) fun c hc => ?_
        · exact hgf.trans hfe ▸ hcs.mirrors
        · by_cases hph : c = .placeholder
          · exact hph ▸ hf.region.placeholder
          · exact hf.region.fresh (hcs.fresh c hc hph)
      have hlinked := (hg.moves (.single hgraft)).linked
      refine ⟨g.next, g.graft n copies, ?_, hcs.moves.trans (.single hgraft),
        untouched_graft hcs.untouched hcs.fresh,
        mirrors_graft (hcs.untouched.has hfn) hne hg.linked.has_placeholder hgc,
        fun _ hf => g.not_has_next (hcs.untouched.has hf), ?_, ?_⟩
      · simp only [run_bind, hrun, run_copyNode]
      · exact replica_graft hf.linked hg.linked hlinked hcs.untouched hfn hne hgc
          (hfe ▸ hcs.replicas)
      · rw [children_graft, if_pos rfl, hfe]
        exact hcs.replicas.imp fun _ _ hr => hr.later hg.linked hlinked retains_graft

theorem copy_spec (hf : f.Ready S) (hn : f.Has n) :
    ∃ c g, (copy n).run f = (.ok c, g) ∧ f.CopiedTo S g n c :=
  copySpine_spec hf.linked hf (.refl f) hn

end Edit

end MathTree

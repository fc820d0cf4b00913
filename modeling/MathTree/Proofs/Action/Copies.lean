import MathTree.Proofs.Action.Links
import MathTree.Proofs.Render.Same

/-!
# Copies on their own

A copy reads as what it was made of and shares no node with it but the placeholder
(`Forest.FaithfulCopy`), so that neither is touched by what is done to the other: an action is confined
to every region that it is given nodes of (`Ready.confined_after`), and so is a run
(`Ready.confined_run`).  Both together are `Reachable.copy_faithful`.
-/

namespace MathTree

open Forest

variable {S : NodeId → Prop} {f g : Forest} {m n p c d : NodeId} {action : Action}
  {actions : List Action}

namespace Forest

/-! ### Actions within a region -/

/-- An action writes nothing outside a region that it is given nodes of. -/
theorem Ready.confined_after (hf : f.Ready S) (hw : ∀ n ∈ action.nodes, f.Within S n) :
    f.Confined S (f.after action) := by
  have h := confined_refl hf.region
  have hone {n : NodeId} (hn : action.nodes = [n]) : S n := (hw n (hn ▸ List.mem_cons_self)).2
  by_cases hm : action.Rearranges
  · exact ((hf.moves_after hw hm).steps hf).confined hf.region
  cases action with
  | drop n => exact (steps_drop_within (hone rfl)).confined hf.region
  | setKind n kind =>
    rw [after_map rfl, Edit.run_setKind]
    split_ifs
    · exact (h.rewrite (hone rfl) ({ · with kind := kind })).announceIfChanged _ _ _
    · exact h
  | setStrict n strict =>
    rw [after_map rfl, Edit.run_setStrict]
    split_ifs
    · exact h
    · exact (h.rewrite (hone rfl) ({ · with strict := strict })).announceIfChanged _ _ _
  | assign n assignment =>
    rw [after_map rfl, Edit.run_assign]
    split_ifs
    · exact h
    · cases (f.head n).assign? assignment with
      | none => exact h
      | some head => exact (h.rewrite (hone rfl) fun _ => head).announce _ _ _
  | hear n x => exact h.hearBelow (hone rfl) x
  | unhear n x => exact h.unhearBelow (hone rfl) x
  | anchor n k => exact h.anchorBelow (hone rfl) (some k)
  | unanchor n => exact h.anchorBelow (hone rfl) none
  | openContainer level version => exact h.of_records rfl
  | closeContainer k => exact h.of_records rfl
  | _ => exact absurd trivial hm

theorem Ready.confined_run (hf : f.Ready S)
    (ha : f.Along (fun e action => e.Admits action ∧ ∀ m ∈ action.nodes, S m) actions) :
    f.Confined S (f.run actions) := by
  induction actions generalizing f with
  | nil => exact confined_refl hf.region
  | cons action actions ih =>
    obtain ⟨⟨hadmits, hS⟩, ha⟩ := ha
    have h := hf.confined_after fun n hn => ⟨hadmits n hn, hS n hn⟩
    exact h.trans (ih ⟨hf.linked.after hadmits, h.region⟩ ha)

/-! ### Copies -/

/-- A node reads as another that was there before, and has no parent.  All that stands below it are
copies of what stands below that one, held by one another, in a tree of their own, and nothing that was
there has changed. -/
structure FaithfulCopy (f g : Forest) (n c : NodeId) : Prop where
  tree : g.tree c = f.tree n
  same : (g.tree c).same (g.tree n)
  rendersAlike : (g.tree c).RendersAlike (g.tree n)
  parent : g.parent c = none
  clones : List.Forall₂ (f.Clone g) (f.spine n).toList (g.spine c).toList
  inner : ∀ d ∈ g.members c, d ≠ c → ∃ p ∈ g.members c, g.parent d = some p
  apart : ∀ d ∈ g.members c, g.root d ≠ g.root n
  untouched : f.Untouched g

theorem Linked.exists_parent_of_mem_members (h : f.Linked) (hn : f.Has n) (hd : d ∈ f.members n)
    (hne : d ≠ n) : ∃ p ∈ f.members n, f.parent d = some p := by
  rcases Relation.ReflTransGen.cases_head ((h.mem_members_iff hn).1 hd).2 with hdn | ⟨p, hp, hpn⟩
  · exact absurd hdn hne
  · have hph := h.ne_placeholder_of_mem_children (h.mem_of_parent hp)
    exact ⟨p, (h.mem_members_iff hn).2 ⟨hph, hpn⟩, hp⟩

theorem Untouched.tree (h : f.Untouched g) (hf : f.Linked) (hg : g.Linked) (hn : f.Has n) :
    g.tree n = f.tree n :=
  h.retains.tree hf hg hn

/-- No new node stands above one that was there. -/
theorem Untouched.has_of_under (h : f.Untouched g) (hf : f.Linked) (hn : f.Has n)
    (hm : g.Under n m) : f.Has m := by
  induction hm with
  | refl => exact hn
  | tail _ hp ih =>
    rw [ChildOf, Forest.parent, h.get ih] at hp
    exact hf.has_of_parent hp

theorem CopiedTo.faithful (h : f.CopiedTo S g n c) (hf : f.Linked) (hg : g.Linked) (hn : f.Has n)
    (hne : n ≠ .placeholder) : f.FaithfulCopy g n c := by
  have hmirrors := h.mirrors
  rw [Mirrors, if_neg hne] at hmirrors
  obtain ⟨hcne, hc, hfree, -⟩ := hmirrors
  have htree : g.tree c = g.tree n := h.replica.tree.trans (h.untouched.tree hf hg hn).symm
  exact {
    tree := h.replica.tree
    same := htree ▸ Tree.same_iff.2 rfl
    rendersAlike := htree ▸ .refl _
    parent := hfree
    clones := h.replica.clones
    inner := fun d => hg.exists_parent_of_mem_members hc
    apart := fun d hd hroot => by
      rw [hg.root_of_under ((hg.mem_members_iff hc).1 hd).2, root_of_parent_none hfree] at hroot
      exact h.fresh hcne (h.untouched.has_of_under hf hn (hroot ▸ g.under_root n))
    untouched := h.untouched }

/-- A node can be copied, faithfully, and then nothing changes in its tree as long as no node of the tree
is given to an action. -/
theorem Reachable.copy_faithful (hf : f.Reachable) (hn : f.Has n) (hne : n ≠ .placeholder) :
    ∃ c g, (Edit.copy n).run f = (.ok c, g) ∧ f.FaithfulCopy g n c ∧
      ∀ actions, g.Along (fun e action =>
          e.Admits action ∧ ∀ m ∈ action.nodes, g.root m ≠ g.root n) actions →
        ∀ m, g.root m = g.root n → (g.run actions).get m = g.get m := by
  obtain ⟨c, g, hrun, hc⟩ := Edit.copy_spec hf.linked.ready hn
  have hg := (hf.linked.ready.moves hc.moves).linked
  refine ⟨c, g, hrun, hc.faithful hf.linked hg hn hne, fun actions ha m hm => ?_⟩
  have hregion := hg.region_root_ne (hc.untouched.has hn) hne
  exact (Ready.confined_run ⟨hg, hregion⟩ ha).get (not_not.2 hm)

/-- A `lambda` that is heard of and anchored, with a placeholder in it, is copied, and then the bound
variable of the copy is renamed. -/
theorem copy_faithful_renamed :
    let f := start.run (oneParameter ++
      [.append ⟨1⟩ .placeholder, .openContainer 3 1, .anchor ⟨1⟩ ⟨0⟩, .hear ⟨1⟩ ⟨0⟩])
    let g := f.after (.copy ⟨1⟩)
    let later : List Action := [.assign ⟨4⟩ (.name "y"), .detach ⟨5⟩]
    (f.Reachable ∧ f.Has ⟨1⟩ ∧ (⟨1⟩ : NodeId) ≠ .placeholder ∧
      g.Along (fun e action => e.Admits action ∧ ∀ m ∈ action.nodes, g.root m ≠ g.root ⟨1⟩) later ∧
      g.root ⟨2⟩ = g.root ⟨1⟩) ∧
    f.FaithfulCopy g ⟨1⟩ ⟨6⟩ ∧ (g.run later).get ⟨2⟩ = g.get ⟨2⟩ := by
  intro f g later
  have hf : f.Reachable := Reachable.start.run (by decide +kernel)
  have hn : f.Has ⟨1⟩ := by decide +kernel
  have hne : (⟨1⟩ : NodeId) ≠ .placeholder := by decide
  have ha : g.Along (fun e action => e.Admits action ∧ ∀ m ∈ action.nodes, g.root m ≠ g.root ⟨1⟩)
      later := by decide +kernel
  have hroot : g.root ⟨2⟩ = g.root ⟨1⟩ := by decide +kernel
  obtain ⟨c, g', hrun, hcopy, hlater⟩ := hf.copy_faithful hn hne
  have hc : ((Edit.copy ⟨1⟩).run f).1 = .ok ⟨6⟩ := by decide +kernel
  have hg : g = g' := by rw [show g = ((Edit.copy ⟨1⟩).run f).2 from after_map rfl, hrun]
  rw [hrun] at hc
  cases hc
  subst hg
  exact ⟨⟨hf, hn, hne, ha, hroot⟩, hcopy, hlater later ha ⟨2⟩ hroot⟩

end Forest

end MathTree

import MathTree.Proofs.Edit.ComposeMoves

/-!
# Nodes above copies

`Edit.compound` makes a node and puts copies of other nodes below it, one after the other.  As long as
there is room this never fails.  In the end the node holds, in the given order, nodes that stand for
those that were copied (`Forest.StandsFor`), and no node that was there holds other children or says
something else of itself (`Edit.compound_spec`).
-/

namespace MathTree

open Forest

variable {S : NodeId → Prop} {f g g' : Forest} {n p c x y : NodeId} {h : Head}
  {l done operands : List NodeId} {form : Form} {kind : Kind}

/-! ### Operators -/

/-- Whether a head is that of an operator, which holds operands and counts none of them. -/
def Head.IsOperator (h : Head) : Prop := h.form = .nary ∨ h.form = .binary ∨ h.form = .unary

theorem Head.IsOperator.isLeaf (hh : h.IsOperator) : h.isLeaf = false := by
  rcases hh with hh | hh | hh <;> rw [Head.isLeaf, hh] <;> rfl

theorem Head.IsOperator.recounted (hh : h.IsOperator) (kinds : List Kind) :
    h.recounted kinds = h := by
  obtain ⟨kind, strict, id, style, styleClass, payload⟩ := h
  cases payload <;> first | rfl | simp [IsOperator, Head.form, Payload.form] at hh

namespace Forest

/-- Whether a node stands for one that was there before: it reads as that one did, and it is the
placeholder only for the placeholder. -/
structure StandsFor (f g : Forest) (x y : NodeId) : Prop where
  has : g.Has y
  tree : g.tree y = f.tree x
  placeholder : y = .placeholder ↔ x = .placeholder

/-- A node was made that nothing holds, with a head and above some nodes.  Of the nodes that were there
none holds other children or says something else of itself. -/
structure Made (S : NodeId → Prop) (f g : Forest) (p : NodeId) (h : Head) (l : List NodeId) :
    Prop where
  moves : f.Moves S g
  keeps : f.Keeps (fun _ => True) g
  fresh : ¬ f.Has p
  has : g.Has p
  free : g.parent p = none
  head : g.head p = h
  children : g.children p = l

theorem made_plant {seed : Seed} (hseed : seed.head? = .ok h) :
    f.Made S (f.grow { head := h }).2 f.next h [] where
  moves := .single (.plant hseed)
  keeps := {
    has := fun hn => has_plant.2 (.inl hn)
    children := fun _ _ => children_plant
    head := fun hn _ => by rw [head_plant, if_neg (ne_next_of_has hn)] }
  fresh := f.not_has_next
  has := has_plant.2 (.inr rfl)
  free := by
    rw [parent_plant, parent, get_next]
    rfl
  head := by rw [head_plant, if_pos rfl]
  children := by
    rw [children_plant, children, get_next]
    rfl

theorem Made.copied (hp : f.Made S g p h l) (hc : g.CopiedTo S g' x c) : f.Made S g' p h l where
  moves := hp.moves.trans hc.moves
  keeps := hp.keeps.trans hc.untouched.retains.keeps
  fresh := hp.fresh
  has := hc.untouched.has hp.has
  free := by rw [parent, hc.untouched.get hp.has, ← parent, hp.free]
  head := by rw [Forest.head, hc.untouched.get hp.has, ← Forest.head, hp.head]
  children := by rw [Forest.children, hc.untouched.get hp.has, ← Forest.children, hp.children]

/-! ### Appending to a node that nothing holds -/

theorem keeps_link (hp : f.Has p) (i : Nat) (c : NodeId) : f.Keeps (· ≠ p) (f.link p i c) where
  has := has_link.2
  children _ hn := by rw [(rehung_link hp i c).children, if_neg hn]
  head _ hn := by rw [(rehung_link hp i c).head, if_neg hn]

/-- What keeps all but a new node keeps all that was there before. -/
theorem Keeps.trans_of_fresh {P : NodeId → Prop} (h : f.Keeps P g) (h' : g.Keeps (· ≠ p) g')
    (hp : ¬ f.Has p) : f.Keeps P g' where
  has hn := h'.has (h.has hn)
  children hn hP := (h'.children (h.has hn) fun e => hp (e ▸ hn)).trans (h.children hn hP)
  head hn hP := (h'.head (h.has hn) fun e => hp (e ▸ hn)).trans (h.head hn hP)

/-- What is done to a node that nothing holds changes no expression but its own. -/
theorem Keeps.tree_of_ne (hk : f.Keeps (· ≠ p) g) (hf : f.Linked) (hg : g.Linked)
    (hp : f.parent p = none) (hph : p ≠ .placeholder) (hn : f.Has n) (hne : n ≠ p) :
    g.tree n = f.tree n := by
  refine hk.tree_of_not_under hf hg hph hn fun hu => ?_
  rcases Relation.ReflTransGen.cases_head hu with hpn | ⟨q, hq, -⟩
  · exact hne hpn.symm
  · rw [ChildOf, hp] at hq
    cases hq

section

variable (hf : f.Linked) (hp : f.parent p = none) (hc : f.parent c = none)
include hf hp hc

theorem Linked.insertFault?_of_free (hl : (f.head p).isLeaf = false) (hne : c ≠ p)
    (hroom : ∀ k, (f.head p).capacity = some k → (f.children p).length < k) :
    f.insertFault? p (f.children p).length c = none := by
  have htaken : f.roomTaken p c = (f.children p).length := hf.roomTaken_of_free hc
  have hlineage : f.lineage p = [p] := Linked.lineage_of_parent_none hp
  refine insertFault?_eq_none_iff.2 ⟨adoptFault?_eq_none_iff.2 ⟨hl, ?_⟩, ?_, ?_⟩
  · rw [hlineage, List.mem_singleton]
    exact hne
  · refine roomFault?_eq_none_iff.2 fun k hk _ => ?_
    rw [htaken]
    exact hroom k hk
  · exact Nat.le_of_eq htaken.symm

theorem Linked.run_append_of_free (hl : (f.head p).isLeaf = false) (hne : c ≠ p)
    (hroom : ∀ k, (f.head p).capacity = some k → (f.children p).length < k) :
    (Edit.append p c).run f = (.ok (), f.link p (f.children p).length c) := by
  rw [Edit.run_append, hf.roomTaken_of_free hc, Edit.run_insertAt,
    hf.insertFault?_of_free hp hc hl hne hroom, detach_of_parent_none hc]

end

/-- A node stands for another still if it reads as it did. -/
theorem StandsFor.later (h : f.StandsFor g x y) (hhas : g'.Has y) (htree : g'.tree y = g.tree y) :
    f.StandsFor g' x y :=
  ⟨hhas, htree.trans h.tree, h.placeholder⟩

/-- A node stands for what another was if that one read as it does. -/
theorem StandsFor.earlier {e : Forest} (h : f.StandsFor g x y) (htree : f.tree x = e.tree x) :
    e.StandsFor g x y :=
  ⟨h.has, h.tree.trans htree, h.placeholder⟩

theorem Made.ne_placeholder (hm : f.Made S g p h l) (hf : f.Linked) : p ≠ .placeholder := by
  rintro rfl
  exact hm.fresh hf.has_placeholder

section

variable (hf : f.Ready S) (hm : f.Made S g p h l) (hh : h.IsOperator)
  (hroom : ∀ k, h.capacity = some k → l.length < k)
include hf hm hh hroom

/-- A node without a parent is put behind those that a new node holds. -/
theorem Made.append (hc : g.Within S c) (hfree : g.parent c = none) (hne : c ≠ p) :
    ∃ g', (Edit.append p c).run g = (.ok (), g') ∧ f.Made S g' p h (l ++ [c]) ∧
      g.Keeps (· ≠ p) g' := by
  have hg := hf.moves hm.moves
  have hl : (g.head p).isLeaf = false := hm.head ▸ hh.isLeaf
  have hroom' (k : Nat) (hk : (g.head p).capacity = some k) : (g.children p).length < k := by
    rw [hm.head] at hk
    rw [hm.children]
    exact hroom k hk
  have hfault := hg.linked.insertFault?_of_free hm.free hfree hl hne hroom'
  have hr := rehung_link hm.has (g.children p).length c
  have hkeeps := keeps_link hm.has (g.children p).length c
  have hmove : g.Move S (g.link p (g.children p).length c) := by
    have hinsert := Move.insert ⟨hm.has, hf.region.fresh hm.fresh⟩ hc hfault
    rwa [detach_of_parent_none hfree] at hinsert
  refine ⟨_, hg.linked.run_append_of_free hm.free hfree hl hne hroom', ?_, hkeeps⟩
  refine ⟨hm.moves.trans (.single hmove), hm.keeps.trans_of_fresh hkeeps hm.fresh, hm.fresh,
    has_link.2 hm.has, ?_, ?_, ?_⟩
  · rw [hr.parent, if_neg fun e => hne e.1.symm, hm.free]
  · rw [hr.head, if_pos rfl, hm.head, hh.recounted]
  · rw [hr.children, if_pos rfl, hm.children, List.insertIdx_length_self]

/-- A copy of a node that was there is put behind those that a new node holds. -/
theorem Made.appendCopy (hx : f.Has x) :
    ∃ c g', (Edit.copy x >>= Edit.append p).run g = (.ok (), g') ∧
      f.Made S g' p h (l ++ [c]) ∧ f.StandsFor g' x c ∧ g.Keeps (· ≠ p) g' := by
  have hg := hf.moves hm.moves
  have hgx := hm.keeps.has hx
  obtain ⟨c, e, hcopy, hc⟩ := Edit.copy_spec hg hgx
  have hme := hm.copied hc
  have he := hf.moves hme.moves
  have hne : c ≠ p := by
    rintro rfl
    by_cases hph : c = .placeholder
    · exact hm.fresh (hph ▸ hf.linked.has_placeholder)
    · exact hc.fresh hph hm.has
  have hcS : S c := by
    by_cases hph : c = .placeholder
    · exact hph ▸ hf.region.placeholder
    · exact hf.region.fresh fun hfc => hc.fresh hph (hm.keeps.has hfc)
  obtain ⟨g', happend, hmg, hkeeps⟩ := hme.append hf hh hroom ⟨hc.replica.has, hcS⟩
    (hc.mirrors.parent_eq_none he.linked) hne
  have hstands : f.StandsFor e x c :=
    ⟨hc.replica.has, hc.replica.tree.trans (hm.keeps.tree_of_has hf.linked hg.linked hx),
      hc.mirrors.eq_placeholder_iff⟩
  refine ⟨c, g', ?_, hmg, ?_, hc.untouched.retains.keeps.trans hkeeps⟩
  · rw [Edit.run_bind, hcopy]
    exact happend
  · exact hstands.later (hkeeps.has hc.replica.has) (hkeeps.tree_of_ne he.linked
      (hf.moves hmg.moves).linked hme.free (hm.ne_placeholder hf.linked) hc.replica.has hne)

end

/-- Copies of some nodes are put behind those that a new node holds, as long as there is room. -/
theorem Made.appendCopies (hf : f.Ready S) (hm : f.Made S g p h l) (hh : h.IsOperator)
    (hl : List.Forall₂ (f.StandsFor g) done l)
    (hroom : ∀ k, h.capacity = some k → l.length + operands.length ≤ k)
    (hoperands : ∀ x ∈ operands, f.Has x) :
    ∃ g' copies, (operands.forM fun x => Edit.copy x >>= Edit.append p).run g = (.ok (), g') ∧
      f.Made S g' p h copies ∧ List.Forall₂ (f.StandsFor g') (done ++ operands) copies := by
  induction operands generalizing g l done with
  | nil => exact ⟨g, l, rfl, hm, by rwa [List.append_nil]⟩
  | cons x operands ih =>
    have hlt (k : Nat) (hk : h.capacity = some k) : l.length < k := by
      have := hroom k hk
      rw [List.length_cons] at this
      omega
    obtain ⟨c, e, hrun, hme, hc, hkeeps⟩ :=
      hm.appendCopy hf hh hlt (hoperands x List.mem_cons_self)
    have hg := (hf.moves hm.moves).linked
    have he := (hf.moves hme.moves).linked
    have hph := hm.ne_placeholder hf.linked
    have hearlier : List.Forall₂ (f.StandsFor e) done l := by
      refine List.forall₂_iff_zip.2 ⟨hl.length_eq, fun {y z} hyz => ?_⟩
      have hz : z ∈ g.children p := hm.children ▸ (List.of_mem_zip hyz).2
      have hne : z ≠ p := by
        rintro rfl
        exact hg.ne_of_mem_children hm.free hz hph rfl
      have hstands := (List.forall₂_iff_zip.1 hl).2 hyz
      exact hstands.later (hkeeps.has hstands.has)
        (hkeeps.tree_of_ne hg he hm.free hph hstands.has hne)
    have hroom' (k : Nat) (hk : h.capacity = some k) :
        (l ++ [c]).length + operands.length ≤ k := by
      have := hroom k hk
      simp only [List.length_append, List.length_cons, List.length_nil] at *
      omega
    obtain ⟨g', copies, hrun', hmg, hcopies⟩ :=
      ih hme (List.rel_append hearlier (.cons hc .nil)) hroom'
        fun x hx => hoperands x (List.mem_cons_of_mem _ hx)
    refine ⟨g', copies, ?_, hmg, by rwa [List.append_assoc] at hcopies⟩
    rw [List.forM, Edit.run_bind, hrun]
    exact hrun'

end Forest

namespace Edit

theorem run_plant {seed : Seed} (hseed : seed.head? = .ok h) :
    (plant seed).run f = (.ok f.next, (f.grow { head := h }).2) := by
  rw [plant, run_bind, run_lift, hseed]
  rfl

/-- A new operator is put above copies of its operands, which it has room for. -/
theorem compound_spec (hf : f.Ready S) (hallows : form.allows kind)
    (hform : form = .nary ∨ form = .binary ∨ form = .unary)
    (hroom : ∀ k, form.capacity kind = some k → operands.length ≤ k)
    (hoperands : ∀ x ∈ operands, f.Has x) :
    ∃ p g copies, (compound form kind operands).run f = (.ok p, g) ∧
      f.Made S g p (.blank form kind) copies ∧ List.Forall₂ (f.StandsFor g) operands copies := by
  have hseed : (Seed.ofForm form kind).head? = .ok (.blank form kind) := by
    rw [Seed.head?, if_pos hallows]
  have hop : (Head.blank form kind).IsOperator := by rwa [Head.IsOperator, Head.form_blank]
  have hcapacity (k : Nat) (hk : (Head.blank form kind).capacity = some k) :
      ([] : List NodeId).length + operands.length ≤ k := by
    rw [Head.capacity, Head.form_blank] at hk
    rw [List.length_nil, Nat.zero_add]
    exact hroom k hk
  obtain ⟨g, copies, hrun, hmade, hcopies⟩ :=
    (made_plant hseed).appendCopies hf hop .nil hcapacity hoperands
  refine ⟨f.next, g, copies, ?_, hmade, hcopies⟩
  rw [compound, run_bind, run_plant hseed]
  dsimp only
  rw [run_bind, hrun]
  rfl

end Edit

end MathTree

import MathTree.Proofs.Forest.Steps

/-!
# Links stay in agreement

Each elementary change keeps `Forest.Linked` (`Linked.step`), and so does what changes no links
(`Linked.of_same_links`).  The way up from a node is
followed through the changes by `under_of_new_parent`: with one node given a new parent, a node
stands under another as it did before, or by way of that new link.
-/

namespace MathTree.Forest

variable {S : NodeId → Prop} {f g : Forest} {a b m n p q c : NodeId} {i : Nat}

/-! ### Standing under -/

theorem under_mono (h : ∀ n m, g.parent n = some m → f.parent n = some m) (hab : g.Under a b) :
    f.Under a b :=
  Relation.ReflTransGen.mono (fun n m => h n m) _ _ hab

theorem under_of_new_parent
    (h : ∀ n m, g.parent n = some m → f.parent n = some m ∨ n = c ∧ m = q) (hab : g.Under a b) :
    f.Under a b ∨ f.Under a c ∧ f.Under q b := by
  induction hab with
  | refl => exact .inl .refl
  | @tail d e _ hde ih =>
    rcases h d e hde with hde | ⟨rfl, rfl⟩
    · rcases ih with ih | ⟨hc, hq⟩
      · exact .inl (ih.tail hde)
      · exact .inr ⟨hc, hq.tail hde⟩
    · rcases ih with ih | ⟨hc, -⟩
      · exact .inr ⟨ih, .refl⟩
      · exact .inr ⟨hc, .refl⟩

/-- A new parent that does not stand under the node closes no circle. -/
theorem acyclic_of_new_parent (hf : ∀ n, ¬ Relation.TransGen f.ChildOf n n)
    (h : ∀ n m, g.parent n = some m → f.parent n = some m ∨ n = c ∧ m = q)
    (hqc : ¬ f.Under q c) (n : NodeId) : ¬ Relation.TransGen g.ChildOf n n := by
  intro hn
  obtain ⟨m, hnm, hmn⟩ := Relation.TransGen.head'_iff.1 hn
  rcases h n m hnm with hnm | ⟨rfl, rfl⟩
  · rcases under_of_new_parent h hmn with hmn | ⟨hmc, hqn⟩
    · exact hf n (.head' hnm hmn)
    · exact hqc (hqn.trans (.head hnm hmc))
  · rcases under_of_new_parent h hmn with hmn | ⟨hmn, -⟩
    · exact hqc hmn
    · exact hqc hmn

theorem acyclic_mono (hf : ∀ n, ¬ Relation.TransGen f.ChildOf n n)
    (h : ∀ n m, g.parent n = some m → f.parent n = some m) (n : NodeId) :
    ¬ Relation.TransGen g.ChildOf n n :=
  fun hn => hf n (Relation.TransGen.mono (fun n m => h n m) _ _ hn)

/-- A node from which nothing leads on closes no circle, wherever links to it come from. -/
theorem acyclic_of_dead_end (hf : ∀ n, ¬ Relation.TransGen f.ChildOf n n)
    (h : ∀ n m, g.parent n = some m → f.parent n = some m ∨ m = q) (hq : g.parent q = none)
    (n : NodeId) : ¬ Relation.TransGen g.ChildOf n n := by
  have hnot (m : NodeId) : ¬ g.ChildOf q m := by
    rw [ChildOf, hq]
    exact (Option.some_ne_none m).symm
  have hold {a b : NodeId} (hab : Relation.TransGen g.ChildOf a b) :
      b = q ∨ Relation.TransGen f.ChildOf a b := by
    induction hab with
    | single hb => exact (h _ _ hb).symm.imp_right .single
    | @tail b c _ hbc ih =>
      rcases ih with rfl | ih
      · exact absurd hbc (hnot c)
      · exact (h b c hbc).symm.imp_right ih.tail
  intro hn
  rcases hold hn with rfl | hn
  · obtain ⟨m, hm, -⟩ := Relation.TransGen.head'_iff.1 hn
    exact hnot m hm
  · exact hf n hn

/-! ### Linking and unlinking -/

theorem count_insertIdx (l : List NodeId) (hi : i ≤ l.length) (a c : NodeId) :
    (l.insertIdx i c).count a = l.count a + if c = a then 1 else 0 := by
  rw [(List.perm_insertIdx c l hi).count_eq a, List.count_cons]
  simp

theorem count_eraseIdx {l : List NodeId} (hi : l[i]? = some c) (a : NodeId) :
    l.count a = (l.eraseIdx i).count a + if c = a then 1 else 0 := by
  obtain ⟨hlt, rfl⟩ := List.getElem?_eq_some_iff.1 hi
  rw [← (List.getElem_cons_eraseIdx_perm hlt).count_eq a, List.count_cons]
  simp

/-- The only place where a node was listed is gone. -/
theorem not_mem_eraseIdx {l : List NodeId} (honce : l.count c ≤ 1) (hi : l[i]? = some c) :
    c ∉ l.eraseIdx i := by
  have hcount := count_eraseIdx hi c
  rw [if_pos rfl] at hcount
  rw [← List.count_eq_zero]
  omega

namespace Linked

variable (h : f.Linked)
include h

/-- A change that neither makes nor breaks a link. -/
theorem of_same_links (hhas : ∀ n, f.Has n → g.Has n) (hparent : ∀ n, g.parent n = f.parent n)
    (hchildren : ∀ n, g.children n = f.children n)
    (hleaf : ∀ n, (g.head n).isLeaf → (f.head n).isLeaf ∨ f.children n = [])
    (hph : g.get .placeholder = f.get .placeholder) : g.Linked where
  has_placeholder := hhas _ h.has_placeholder
  placeholder := hph.trans h.placeholder
  has_of_mem hc := hhas _ (h.has_of_mem (hchildren _ ▸ hc))
  parent_iff hc := by rw [hparent, hchildren, h.parent_iff hc]
  once p _ hc := by rw [hchildren]; exact h.once p hc
  acyclic := acyclic_mono h.acyclic fun n m hm => by rwa [hparent] at hm
  leaf hn := by
    rw [hchildren]
    exact (hleaf _ hn).elim h.leaf id

theorem of_alike (hg : f.Alike g) : g.Linked :=
  h.of_same_links (fun _ => hg.has_iff.2) hg.parent hg.children
    (fun n hn => .inl (by rwa [hg.head] at hn)) hg.placeholder

theorem next_ne_placeholder : f.next ≠ .placeholder := (ne_next_of_has h.has_placeholder).symm

theorem plant {head : Head} : (f.grow { head := head }).2.Linked := by
  refine h.of_same_links (fun n hn => has_plant.2 (.inl hn)) (fun _ => parent_plant)
    (fun _ => children_plant) (fun n hn => ?_) ?_
  · rw [head_plant] at hn
    split_ifs at hn with hnext
    · right
      rw [hnext, Forest.children, get_next]
      rfl
    · exact .inl hn
  · rw [get_plant, if_neg h.next_ne_placeholder.symm]

theorem count_eq_zero_of_free (hfree : f.parent c = none) (hne : c ≠ .placeholder) (p : NodeId) :
    (f.children p).count c = 0 :=
  List.count_eq_zero.2 fun hc => h.ne_of_mem_children hfree hc hne rfl

theorem link (hp : f.Has p) (hc : f.Has c) (hleaf : (f.head p).isLeaf = false)
    (hfree : f.parent c = none) (habove : ¬ f.Under p c) (hi : i ≤ (f.children p).length) :
    (f.link p i c).Linked := by
  have hr := rehung_link hp i c
  have hpne : p ≠ .placeholder := by
    rintro rfl
    rw [h.head_placeholder] at hleaf
    cases hleaf
  have hhas (n : NodeId) (hn : f.Has n) : (f.link p i c).Has n := by rwa [Has, hr.size]
  exact {
    has_placeholder := hhas _ h.has_placeholder
    placeholder := (hr.placeholder hpne).trans h.placeholder
    has_of_mem := fun hd => by
      rw [hr.children] at hd
      split_ifs at hd with hq
      · rcases (List.mem_insertIdx hi).1 hd with rfl | hd
        · exact hhas _ hc
        · exact hhas _ (h.has_of_mem hd)
      · exact hhas _ (h.has_of_mem hd)
    parent_iff := fun {q d} hd => by
      rw [hr.parent, hr.children]
      by_cases hdc : d = c
      · subst hdc
        rw [if_pos ⟨rfl, hd, hc⟩]
        split_ifs with hq
        · simp [hq, List.mem_insertIdx hi]
        · rw [← h.parent_iff hd, hfree]
          simp [Ne.symm hq]
      · rw [if_neg fun e => hdc e.1, h.parent_iff hd]
        split_ifs with hq
        · simp [hq, List.mem_insertIdx hi, hdc]
        · rfl
    once := fun q d hd => by
      rw [hr.children]
      split_ifs with hq
      · rw [count_insertIdx _ hi]
        split_ifs with hcd
        · subst hcd
          simp [h.count_eq_zero_of_free hfree hd p]
        · simpa using h.once p hd
      · exact h.once q hd
    acyclic := acyclic_of_new_parent h.acyclic (fun n m hm => by
      rw [hr.parent] at hm
      split_ifs at hm with hn
      · exact .inr ⟨hn.1, (Option.some.inj hm).symm⟩
      · exact .inl hm) habove
    leaf := fun {n} hn => by
      rw [hr.head] at hn
      rw [hr.children]
      split_ifs at hn ⊢ with hnp
      · rw [Head.isLeaf_recounted, hleaf] at hn
        cases hn
      · exact h.leaf hn }

theorem unlink (hi : (f.children p)[i]? = some c) : (f.unlink p i c).Linked := by
  have hp := has_of_getElem?_children hi
  have hr := rehung_unlink hp i c
  have hcp : c ∈ f.children p := List.mem_of_getElem? hi
  have hpne := h.ne_placeholder_of_mem_children hcp
  have hhas (n : NodeId) (hn : f.Has n) : (f.unlink p i c).Has n := by rwa [Has, hr.size]
  have hcount := count_eraseIdx hi
  exact {
    has_placeholder := hhas _ h.has_placeholder
    placeholder := (hr.placeholder hpne).trans h.placeholder
    has_of_mem := fun hd => by
      rw [hr.children] at hd
      split_ifs at hd
      · exact hhas _ (h.has_of_mem (List.mem_of_mem_eraseIdx hd))
      · exact hhas _ (h.has_of_mem hd)
    parent_iff := fun {q d} hd => by
      rw [hr.parent, hr.children]
      by_cases hdc : d = c
      · subst hdc
        rw [if_pos ⟨rfl, hd, h.has_of_mem hcp⟩]
        split_ifs with hq
        · simp [not_mem_eraseIdx (h.once p hd) hi]
        · rw [← h.parent_iff hd, (h.parent_iff hd).2 hcp]
          simp [Ne.symm hq]
      · rw [if_neg fun e => hdc e.1, h.parent_iff hd]
        split_ifs with hq
        · rw [hq, ← List.count_pos_iff, ← List.count_pos_iff, hcount d, if_neg (Ne.symm hdc),
            Nat.add_zero]
        · rfl
    once := fun q d hd => by
      rw [hr.children]
      split_ifs with hq
      · exact Nat.le_trans (Nat.le.intro (hcount d).symm) (h.once p hd)
      · exact h.once q hd
    acyclic := acyclic_mono h.acyclic fun n m hm => by
      rw [hr.parent] at hm
      split_ifs at hm
      exact hm
    leaf := fun {n} hn => by
      rw [hr.head] at hn
      rw [hr.children]
      split_ifs at hn ⊢ with hnp
      · rw [h.leaf (by simpa using hn)]
        rfl
      · exact h.leaf hn }

/-! ### Copying and freeing -/

theorem graft {copies : List NodeId} (hcopies : List.Forall₂ f.Mirrors copies (f.children n))
    (honce : ∀ {c : NodeId}, c ≠ .placeholder → copies.count c ≤ 1) :
    (f.graft n copies).Linked := by
  have hparent {m : NodeId} := parent_graft (n := n) (m := m) hcopies
  have hfree := free_of_mirrors hcopies
  have hhas (c : NodeId) (hc : c ∈ copies) : f.Has c := by
    by_cases hne : c = .placeholder
    · exact hne ▸ h.has_placeholder
    · exact (hfree c hc hne).1
  have hnext : f.next ∉ copies := fun hc => ne_next_of_has (hhas _ hc) rfl
  have hfresh : f.parent f.next = none := by
    rw [Forest.parent, get_next]
    rfl
  exact {
    has_placeholder := has_graft.2 (.inl h.has_placeholder)
    placeholder := (get_graft_placeholder h.has_placeholder).trans h.placeholder
    has_of_mem := fun hd => by
      rw [children_graft] at hd
      split_ifs at hd
      · exact has_graft.2 (.inl (hhas _ hd))
      · exact has_graft.2 (.inl (h.has_of_mem hd))
    parent_iff := fun {q d} hd => by
      rw [hparent, children_graft]
      by_cases hdc : d ∈ copies
      · rw [if_pos ⟨hdc, hd⟩]
        split_ifs with hq
        · simp [hq, hdc]
        · rw [← h.parent_iff hd, (hfree d hdc hd).2]
          simp [Ne.symm hq]
      · rw [if_neg fun e => hdc e.1, h.parent_iff hd]
        split_ifs with hq
        · simp only [hdc, iff_false]
          rw [hq, Forest.children, get_next]
          exact List.not_mem_nil
        · rfl
    once := fun q d hd => by
      rw [children_graft]
      split_ifs
      · exact honce hd
      · exact h.once q hd
    acyclic := acyclic_of_dead_end h.acyclic (fun a b hb => by
      rw [hparent] at hb
      split_ifs at hb
      · exact .inr (Option.some.inj hb).symm
      · exact .inl hb) (by rw [hparent, if_neg fun e => hnext e.1, hfresh])
    leaf := fun {m} hm => by
      rw [head_graft] at hm
      rw [children_graft]
      split_ifs at hm ⊢
      · rw [h.leaf hm] at hcopies
        cases hcopies
        rfl
      · exact h.leaf hm }

theorem discard (hn : n ≠ .placeholder) (hfree : f.parent n = none) : (f.discard n).Linked := by
  have hparent {m : NodeId} := parent_discard (m := m) hfree
  exact {
    has_placeholder := has_discard.2 h.has_placeholder
    placeholder := (get_discard_placeholder hn).trans h.placeholder
    has_of_mem := fun hd => by
      rw [children_discard] at hd
      split_ifs at hd
      · cases hd
      · exact has_discard.2 (h.has_of_mem hd)
    parent_iff := fun {q d} hd => by
      rw [hparent, children_discard]
      by_cases hdn : d ∈ f.children n
      · rw [if_pos ⟨hdn, hd⟩]
        split_ifs with hq
        · simp
        · rw [← h.parent_iff hd, (h.parent_iff hd).2 hdn]
          simp [Ne.symm hq]
      · rw [if_neg fun e => hdn e.1, h.parent_iff hd]
        split_ifs with hq
        · simp [hq, hdn]
        · rfl
    once := fun q d hd => by
      rw [children_discard]
      split_ifs
      · simp
      · exact h.once q hd
    acyclic := acyclic_mono h.acyclic fun m q hm => by
      rw [hparent] at hm
      split_ifs at hm
      exact hm
    leaf := fun {m} hm => by
      rw [children_discard]
      split_ifs with hmn
      · rfl
      · rw [head_discard, if_neg hmn] at hm
        exact h.leaf hm }

theorem step (hs : f.Step S g) : g.Linked := by
  cases hs with
  | plant => exact h.plant
  | graft hn hcopies honce _ => exact h.graft hcopies honce
  | link hp hc _ _ hleaf hfree habove hi => exact h.link hp hc hleaf hfree habove hi
  | unlink _ hi => exact h.unlink hi
  | free _ hn hfree => exact h.discard hn hfree

theorem steps (hs : f.Steps S g) : g.Linked := by
  induction hs with
  | refl => exact h
  | tail _ hs ih => exact ih.step hs

end Linked

end MathTree.Forest

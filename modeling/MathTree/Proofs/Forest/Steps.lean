import MathTree.Proofs.Forest.Linked
import Mathlib.Data.List.InsertIdx

/-!
# Elementary changes

Every edit that makes or moves nodes does so by five elementary changes (`Forest.Step`): a node is
planted, a node is copied above copies of its children, a node without a parent is linked in, a
child is let go, or a node without a parent is freed.  What such a change needs stands in its
constructor, so that a property of forests that these five keep is kept by all those edits.  Here
this is shown of `Forest.Linked`.

A step is taken within a region, a set of nodes that is closed under links (`Forest.Region`).
-/

namespace MathTree.Forest

variable {S : NodeId → Prop} {f g : Forest} {a b m n p c : NodeId} {i : Nat}

/-- Whether a node is a copy of another that nothing holds yet.  The placeholder is its own copy. -/
def Mirrors (f : Forest) (c n : NodeId) : Prop :=
  if n = .placeholder then c = .placeholder
  else c ≠ .placeholder ∧ f.Has c ∧ f.parent c = none ∧ f.head c = f.head n ∧
    (f.get c).container = (f.get n).container ∧ (f.get c).listeners = []

/-- The forest with one more node, a copy of a node above these copies of its children. -/
def graft (f : Forest) (n : NodeId) (copies : List NodeId) : Forest :=
  let r : Record := { head := f.head n, container := (f.get n).container, children := copies }
  (f.grow r).2.claim (f.grow r).1 copies

/-- One elementary change within a region. -/
inductive Step (S : NodeId → Prop) (f : Forest) : Forest → Prop
  | plant {seed : Seed} {head : Head} (hseed : seed.head? = .ok head) :
    Step S f (f.grow { head := head }).2
  | graft {n : NodeId} {copies : List NodeId} (hn : n ≠ .placeholder)
    (hcopies : List.Forall₂ f.Mirrors copies (f.children n))
    (honce : ∀ {c : NodeId}, c ≠ .placeholder → copies.count c ≤ 1)
    (hS : ∀ c ∈ copies, S c) : Step S f (f.graft n copies)
  | link {p c : NodeId} {i : Nat} (hp : f.Has p) (hc : f.Has c) (hSp : S p) (hSc : S c)
    (hleaf : (f.head p).isLeaf = false) (hfree : f.parent c = none) (habove : ¬ f.Under p c)
    (hi : i ≤ (f.children p).length) : Step S f (f.link p i c)
  | unlink {p c : NodeId} {i : Nat} (hSp : S p) (hi : (f.children p)[i]? = some c) :
    Step S f (f.unlink p i c)
  | free {n : NodeId} (hS : S n) (hn : n ≠ .placeholder) (hfree : f.parent n = none) :
    Step S f (f.discard n)

/-- Some elementary changes one after the other, within a region. -/
def Steps (S : NodeId → Prop) : Forest → Forest → Prop := Relation.ReflTransGen (Step S)

/-! ### What the changes do to heads and links -/

theorem has_of_getElem?_children (hi : (f.children p)[i]? = some c) : f.Has p := by
  by_contra hn
  simp [children, get_of_not_has f hn, Record.placeholder] at hi

theorem get_claim {children : List NodeId} : (f.claim p children).get m
    = if (m ∈ children ∧ m ≠ .placeholder) ∧ f.Has m then { f.get m with parent := some p }
      else f.get m := by
  unfold claim
  rw [get_foldl_modify ({ · with parent := some p }) fun _ => rfl]
  simp only [List.mem_filter, decide_eq_true_eq]

theorem has_claim {children : List NodeId} : (f.claim p children).Has m ↔ f.Has m :=
  has_foldl_modify _ _ f

/-- The node that is made next. -/
def next (f : Forest) : NodeId := ⟨f.records.size⟩

theorem not_has_next (f : Forest) : ¬ f.Has f.next := by
  simp [Has, next]

theorem ne_next_of_has (hn : f.Has n) : n ≠ f.next := by
  rintro rfl
  exact f.not_has_next hn

theorem get_next (f : Forest) : f.get f.next = .placeholder := get_of_not_has f f.not_has_next

theorem has_plant {r : Record} : (f.grow r).2.Has m ↔ f.Has m ∨ m = f.next := has_grow f r

theorem get_plant {r : Record} : (f.grow r).2.get m = if m = f.next then r else f.get m :=
  get_grow f r

/-- A node that was planted has no links, as a node has that was never made. -/
theorem parent_plant {h : Head} : (f.grow { head := h }).2.parent m = f.parent m := by
  rw [parent, get_plant]
  split_ifs with hm
  · rw [hm, parent, get_next]
    rfl
  · rfl

theorem children_plant {h : Head} : (f.grow { head := h }).2.children m = f.children m := by
  rw [children, get_plant]
  split_ifs with hm
  · rw [hm, children, get_next]
    rfl
  · rfl

theorem head_plant {h : Head} :
    (f.grow { head := h }).2.head m = if m = f.next then h else f.head m := by
  rw [head, get_plant]
  split_ifs <;> rfl

section graft

variable {copies : List NodeId}

theorem has_graft : (f.graft n copies).Has m ↔ f.Has m ∨ m = f.next := by
  rw [graft, has_claim, has_plant]

theorem head_graft :
    (f.graft n copies).head m = if m = f.next then f.head n else f.head m := by
  rw [graft, head, get_claim, get_plant]
  split_ifs <;> rfl

theorem children_graft :
    (f.graft n copies).children m = if m = f.next then copies else f.children m := by
  rw [graft, children, get_claim, get_plant]
  split_ifs <;> rfl

/-- Each copy is a copy of something. -/
theorem exists_of_mirrors {l : List NodeId} (hcopies : List.Forall₂ f.Mirrors copies l)
    (hc : c ∈ copies) : ∃ d ∈ l, f.Mirrors c d := by
  induction hcopies with
  | nil => cases hc
  | @cons c' d copies l hcd _ ih =>
    rcases List.mem_cons.1 hc with rfl | hc
    · exact ⟨d, List.mem_cons_self, hcd⟩
    · obtain ⟨e, he, hce⟩ := ih hc
      exact ⟨e, List.mem_cons_of_mem _ he, hce⟩

theorem free_of_mirrors {l : List NodeId} (hcopies : List.Forall₂ f.Mirrors copies l) :
    ∀ c ∈ copies, c ≠ .placeholder → f.Has c ∧ f.parent c = none := by
  intro c hc hne
  obtain ⟨d, -, hcd⟩ := exists_of_mirrors hcopies hc
  unfold Mirrors at hcd
  split_ifs at hcd
  · exact absurd hcd hne
  · exact ⟨hcd.2.1, hcd.2.2.1⟩

theorem parent_graft {l : List NodeId} (hcopies : List.Forall₂ f.Mirrors copies l) :
    (f.graft n copies).parent m
      = if m ∈ copies ∧ m ≠ .placeholder then some f.next else f.parent m := by
  rw [graft, parent, get_claim, get_plant]
  simp only [has_plant]
  by_cases hm : m ∈ copies ∧ m ≠ .placeholder
  · have hfree := free_of_mirrors hcopies m hm.1 hm.2
    rw [if_pos ⟨hm, .inl hfree.1⟩, if_pos hm]
    rfl
  · rw [if_neg fun h => hm h.1, if_neg hm]
    split_ifs with hn
    · rw [hn, parent, get_next]
      rfl
    · rfl

theorem get_graft_placeholder (hph : f.Has .placeholder) :
    (f.graft n copies).get .placeholder = f.get .placeholder := by
  rw [graft, get_claim, if_neg fun h => h.1.2 rfl, get_plant, if_neg]
  intro h
  exact f.not_has_next (h ▸ hph)

end graft

section discard

theorem get_loosen : (f.loosen n).get m
    = if m = n then { head := f.head n }
      else if m ∈ f.children n ∧ m ≠ .placeholder then { f.get m with parent := none }
      else f.get m := by
  unfold loosen
  simp only [get_modify, has_foldl_modify]
  rw [get_foldl_modify ({ · with parent := none }) fun _ => rfl]
  simp only [List.mem_filter, decide_eq_true_eq]
  by_cases hm : m = n
  · subst hm
    by_cases hf : f.Has m
    · simp only [hf, and_true, and_self, if_true, head]
      split_ifs <;> rfl
    · simp [hf, head, get_of_not_has f hf, Record.placeholder]
  · by_cases hf : f.Has m
    · simp [hm, hf]
    · simp [hm, hf, get_of_not_has f hf, Record.placeholder]

theorem has_discard : (f.discard n).Has m ↔ f.Has m := by
  rw [discard, Has, size_recount]
  exact (has_modify _ _).trans (has_foldl_modify _ _ f)

theorem children_discard : (f.discard n).children m = if m = n then [] else f.children m := by
  rw [discard, children_recount, children, get_loosen]
  split_ifs <;> rfl

theorem parent_discard (hfree : f.parent n = none) : (f.discard n).parent m
    = if m ∈ f.children n ∧ m ≠ .placeholder then none else f.parent m := by
  rw [discard, parent_recount, parent, get_loosen]
  by_cases hm : m = n
  · rw [if_pos hm, hm, hfree]
    split_ifs <;> rfl
  · rw [if_neg hm]
    split_ifs <;> rfl

theorem head_loosen : (f.loosen n).head m = f.head m := by
  rw [head, get_loosen]
  split_ifs with hm
  · rw [hm]
  · rfl
  · rfl

theorem head_discard :
    (f.discard n).head m = if m = n then (f.head n).recounted [] else f.head m := by
  rw [discard, head_recount, children, get_loosen, if_pos rfl, head_loosen, head_loosen]
  rfl

theorem get_discard_placeholder (hn : n ≠ .placeholder) :
    (f.discard n).get .placeholder = f.get .placeholder := by
  rw [discard, get_recount_placeholder hn, get_loosen, if_neg hn.symm, if_neg fun h => h.2 rfl]

end discard

end MathTree.Forest

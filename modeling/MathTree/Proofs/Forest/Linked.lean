import MathTree.Proofs.Forest.Alike
import Mathlib.Data.List.Nodup
import Mathlib.Data.List.Perm.Subperm
import Mathlib.Logic.Relation

/-!
# Forests whose links agree

`Forest.Linked` is what every forest has in which nodes are only made and moved by edits: the
children of a node are the nodes that have it as their parent, none is listed twice, and no node
stands above itself.  In such a forest the walks of `Forest.lineage` and `Forest.spine` end before
they reach their bound (`lineageTo_eq_lineage`, `spineTo_eq_spine`), so that `f.lineage n` holds just
the nodes that `n` stands under, and `f.spine n` lays out all that stands below `n`.
-/

namespace MathTree.Forest

/-- Whether a node has this parent. -/
def ChildOf (f : Forest) (c p : NodeId) : Prop := f.parent c = some p

/-- Whether a node is another or stands below it. -/
def Under (f : Forest) (c p : NodeId) : Prop := Relation.ReflTransGen f.ChildOf c p

/-- The placeholder is as it was made, and all other links agree and form trees. -/
structure Linked (f : Forest) : Prop where
  has_placeholder : f.Has .placeholder
  placeholder : f.get .placeholder = .placeholder
  has_of_mem : ∀ {p c : NodeId}, c ∈ f.children p → f.Has c
  parent_iff : ∀ {p c : NodeId}, c ≠ .placeholder → (f.parent c = some p ↔ c ∈ f.children p)
  once : ∀ (p : NodeId) {c : NodeId}, c ≠ .placeholder → (f.children p).count c ≤ 1
  acyclic : ∀ n : NodeId, ¬ Relation.TransGen f.ChildOf n n
  leaf : ∀ {n : NodeId}, (f.head n).isLeaf → f.children n = []

variable {f g : Forest} {m n p c : NodeId}

theorem linked_start : Forest.start.Linked := by
  have hget (n : NodeId) : Forest.start.get n = .placeholder := by
    obtain ⟨i⟩ := n
    cases i <;> rfl
  have hparent (n : NodeId) : Forest.start.parent n = none := by rw [parent, hget]; rfl
  have hchildren (n : NodeId) : Forest.start.children n = [] := by rw [children, hget]; rfl
  refine ⟨by decide, hget _, fun h => ?_, fun _ => ?_, fun p c _ => ?_, fun n h => ?_,
    fun _ => hchildren _⟩
  · rw [hchildren] at h
    exact absurd h List.not_mem_nil
  · simp [hparent, hchildren]
  · simp [hchildren]
  · obtain ⟨m, hm, -⟩ := Relation.TransGen.head'_iff.1 h
    rw [ChildOf, hparent] at hm
    cases hm

/-- What every node passes on to its children comes to all that is laid out below a node. -/
theorem of_mem_spineTo {P : NodeId → Prop} (hpass : ∀ q, P q → ∀ c ∈ f.children q, P c) (k : Nat)
    (hn : P n) : ∀ m ∈ (f.spineTo k n).toList, P m := by
  induction k generalizing n with
  | zero =>
    intro m hm
    rw [spineTo, Rose.toList_node, List.map_nil, List.flatten_nil, List.mem_singleton] at hm
    exact hm ▸ hn
  | succ k ih =>
    intro m hm
    rw [spineTo, Rose.toList_node] at hm
    rcases List.mem_cons.1 hm with rfl | hm
    · exact hn
    · obtain ⟨l, hl, hm⟩ := List.mem_flatten.1 hm
      obtain ⟨t, ht, rfl⟩ := List.mem_map.1 hl
      obtain ⟨c, hc, rfl⟩ := List.mem_map.1 ht
      exact ih (hpass n hn c hc) m hm

/-- The expression of a node says of itself what the node does. -/
theorem head_tree (f : Forest) (n : NodeId) : (f.tree n).head = f.head n := by
  unfold tree spine
  cases f.records.size <;> rfl

theorem kind_tree (f : Forest) (n : NodeId) : (f.tree n).kind = f.kind n :=
  congrArg Head.kind (f.head_tree n)

namespace Linked

variable (h : f.Linked)
include h

theorem parent_placeholder : f.parent .placeholder = none := by
  rw [Forest.parent, h.placeholder]
  rfl

theorem head_placeholder : f.head .placeholder = .ofKind .unknown := by
  rw [Forest.head, h.placeholder]
  rfl

theorem children_placeholder : f.children .placeholder = [] := by
  rw [Forest.children, h.placeholder]
  rfl

theorem ne_placeholder_of_parent (hp : f.parent c = some p) : c ≠ .placeholder := by
  rintro rfl
  rw [h.parent_placeholder] at hp
  cases hp

theorem mem_of_parent (hp : f.parent c = some p) : c ∈ f.children p :=
  (h.parent_iff (h.ne_placeholder_of_parent hp)).1 hp

/-- The placeholder holds nothing. -/
theorem ne_placeholder_of_mem_children (hc : c ∈ f.children p) : p ≠ .placeholder := by
  rintro rfl
  rw [h.children_placeholder] at hc
  cases hc

/-- A node that has no parent is not a child. -/
theorem ne_of_mem_children (hfree : f.parent n = none) (hc : c ∈ f.children p)
    (hne : c ≠ .placeholder) : c ≠ n := by
  rintro rfl
  rw [(h.parent_iff hne).2 hc] at hfree
  cases hfree

/-- What each node passes on to its children comes to all that stands below it. -/
theorem of_under {P : NodeId → Prop}
    (hpass : ∀ q, P q → ∀ c ∈ f.children q, c ≠ .placeholder → P c) (hp : P p)
    (hc : f.Under c p) (hne : c ≠ .placeholder) : P c := by
  induction hc using Relation.ReflTransGen.head_induction_on with
  | refl => exact hp
  | @head c q hcq _ ih =>
    have hmem := h.mem_of_parent hcq
    exact hpass q (ih (h.ne_placeholder_of_mem_children hmem)) c hmem hne

/-- What does not stand above a node does not stand above its children. -/
theorem not_under_of_mem_children (hm : m ≠ .placeholder) (hp : ¬ f.Under m p)
    (hc : c ∈ f.children p) : ¬ f.Under m c := by
  intro hu
  by_cases hne : c = .placeholder
  · obtain hm' | ⟨q, -, hq⟩ := Relation.ReflTransGen.cases_tail hu
    · exact hm (hm' ▸ hne)
    · exact h.ne_placeholder_of_mem_children (h.mem_of_parent hq) hne
  · exact hp (hu.tail ((h.parent_iff hne).2 hc))

theorem has_of_parent (hp : f.parent c = some p) : f.Has p := by
  have hc := h.mem_of_parent hp
  by_contra hn
  rw [Forest.children, get_of_not_has f hn] at hc
  exact absurd hc List.not_mem_nil

/-- A leaf is nobody's parent. -/
theorem isLeaf_of_parent (hp : f.parent c = some p) : (f.head p).isLeaf = false := by
  by_contra hl
  have hc := h.mem_of_parent hp
  rw [h.leaf (by simpa using hl)] at hc
  exact absurd hc List.not_mem_nil

/-! ### The nodes above a node -/

omit h in
theorem under_of_mem_lineageTo {k : Nat} (hm : m ∈ f.lineageTo k n) : f.Under n m := by
  induction k generalizing n with
  | zero =>
    rw [List.mem_singleton.1 hm]
    exact .refl
  | succ k ih =>
    rcases List.mem_cons.1 hm with rfl | hm
    · exact .refl
    · cases hp : f.parent n with
      | none => simp [hp] at hm
      | some p => exact .head hp (ih (by simpa [hp] using hm))

theorem has_of_mem_lineageTo (hn : f.Has n) {k : Nat} (hm : m ∈ f.lineageTo k n) : f.Has m := by
  obtain rfl | ⟨p, -, hp⟩ := Relation.ReflTransGen.cases_tail (under_of_mem_lineageTo hm)
  · exact hn
  · exact h.has_of_parent hp

theorem nodup_lineageTo (k : Nat) (n : NodeId) : (f.lineageTo k n).Nodup := by
  induction k generalizing n with
  | zero => exact List.nodup_singleton n
  | succ k ih =>
    rw [lineageTo, List.nodup_cons]
    cases hp : f.parent n with
    | none => simp
    | some p =>
      -- a node that is met again would stand above itself
      exact ⟨fun hn => h.acyclic n (.head' hp (under_of_mem_lineageTo hn)), ih p⟩

/-- No way up is longer than the forest has nodes. -/
theorem length_lineageTo_le (hn : f.Has n) (k : Nat) :
    (f.lineageTo k n).length ≤ f.records.size := by
  have hsub : f.lineageTo k n ⊆ (List.range f.records.size).map NodeId.mk := fun m hm =>
    List.mem_map.2 ⟨m.index, List.mem_range.2 (h.has_of_mem_lineageTo hn hm), rfl⟩
  simpa using (List.subperm_of_subset (h.nodup_lineageTo k n) hsub).length_le

omit h in
theorem lineageTo_succ_of_length_le {k : Nat} (hk : (f.lineageTo k n).length ≤ k) :
    f.lineageTo (k + 1) n = f.lineageTo k n := by
  induction k generalizing n with
  | zero => simp [lineageTo] at hk
  | succ k ih =>
    rw [lineageTo, lineageTo] at *
    cases hp : f.parent n with
    | none => rfl
    | some p =>
      simp only [hp, Option.elim_some, List.length_cons, Nat.add_le_add_iff_right] at hk
      exact congrArg (n :: ·) (ih hk)

/-- The walk upwards ends before it reaches its bound. -/
theorem lineageTo_eq_lineage (hn : f.Has n) {k : Nat} (hk : f.records.size ≤ k) :
    f.lineageTo k n = f.lineage n := by
  induction hk with
  | refl => rfl
  | @step k hk ih =>
    rw [lineageTo_succ_of_length_le (Nat.le_trans (h.length_lineageTo_le hn k) hk), ih]

omit h in
theorem lineage_of_parent_none (hp : f.parent n = none) : f.lineage n = [n] := by
  unfold lineage
  cases f.records.size with
  | zero => rfl
  | succ k => simp [lineageTo, hp]

theorem lineage_of_parent (hc : f.Has c) (hp : f.parent c = some p) :
    f.lineage c = c :: f.lineage p := by
  have hstep : f.lineageTo (f.records.size + 1) c = c :: f.lineage p := by
    rw [lineageTo, hp]
    rfl
  rw [← hstep, h.lineageTo_eq_lineage hc (Nat.le_succ _)]

theorem mem_lineage_of_under (hn : f.Has n) (hm : f.Under n m) : m ∈ f.lineage n := by
  induction hm using Relation.ReflTransGen.head_induction_on with
  | refl =>
    unfold lineage
    cases f.records.size <;> simp [lineageTo]
  | head hp _ ih =>
    rw [h.lineage_of_parent hn hp]
    exact List.mem_cons_of_mem _ (ih (h.has_of_parent hp))

theorem mem_lineage_iff (hn : f.Has n) : m ∈ f.lineage n ↔ f.Under n m :=
  ⟨under_of_mem_lineageTo, h.mem_lineage_of_under hn⟩

/-! ### The nodes below a node -/

omit h in
theorem spineTo_of_children_nil (hn : f.children n = []) (k : Nat) : f.spineTo k n = .node n [] := by
  cases k with
  | zero => rfl
  | succ k => rw [spineTo, hn, List.map_nil]

/-- With each step down there is one node more above, so the bound is not met. -/
theorem spineTo_succ (k : Nat) (hn : f.Has n) (hk : f.records.size < k + (f.lineage n).length) :
    f.spineTo (k + 1) n = f.spineTo k n := by
  induction k generalizing n with
  | zero =>
    have := h.length_lineageTo_le hn f.records.size
    unfold lineage at hk
    omega
  | succ k ih =>
    rw [spineTo, spineTo]
    congr 1
    refine List.map_congr_left fun c hc => ?_
    by_cases hph : c = .placeholder
    · rw [hph, spineTo_of_children_nil h.children_placeholder,
        spineTo_of_children_nil h.children_placeholder]
    · have hp := (h.parent_iff hph).2 hc
      have hlen : (f.lineage c).length = (f.lineage n).length + 1 := by
        rw [h.lineage_of_parent (h.has_of_mem hc) hp, List.length_cons]
      exact ih (h.has_of_mem hc) (by omega)

/-- The walk downwards ends before it reaches its bound. -/
theorem spineTo_eq_spine (hn : f.Has n) {k : Nat} (hk : f.records.size ≤ k) :
    f.spineTo k n = f.spine n := by
  have hpos : 0 < (f.lineage n).length :=
    List.length_pos_of_mem (h.mem_lineage_of_under hn .refl)
  induction hk with
  | refl => rfl
  | @step k hk ih =>
    have hk : f.records.size ≤ k := hk
    rw [h.spineTo_succ k hn (by omega), ih]

/-- What stands below a node are its children, each with what stands below it. -/
theorem spine_eq (hn : f.Has n) : f.spine n = .node n ((f.children n).map f.spine) := by
  rw [← h.spineTo_eq_spine hn (Nat.le_succ _)]
  rfl

/-- A property of a node, if a node has it whenever all its children have it. -/
theorem below_induction {P : NodeId → Prop}
    (step : ∀ n, f.Has n → (∀ c ∈ f.children n, P c) → P n) (hn : f.Has n) : P n := by
  generalize ht : f.spine n = t
  induction t using Rose.induction generalizing n with
  | node a ts ih =>
    rw [h.spine_eq hn] at ht
    obtain ⟨-, rfl⟩ := Rose.node.inj ht
    exact step n hn fun c hc => ih _ (List.mem_map_of_mem hc) (h.has_of_mem hc) rfl

theorem tree_eq (hn : f.Has n) : f.tree n = .node (f.head n) ((f.children n).map f.tree) := by
  rw [tree, h.spine_eq hn, Rose.map_node, List.map_map]
  rfl

theorem childCount_tree (hn : f.Has n) : (f.tree n).childCount = f.childCount n := by
  rw [h.tree_eq hn, Tree.childCount, Rose.children, List.length_map]
  rfl

theorem shown_tree (hn : f.Has n) : (f.tree n).shown = (f.shown n).map f.tree := by
  rw [Tree.shown, h.childCount_tree hn, h.tree_eq hn, Rose.children, ← List.map_take]
  rfl

end Linked

/-! ### Nodes that are kept -/

/-- Every node is there still, and those of a set hold the same children and say the same of
themselves. -/
structure Keeps (P : NodeId → Prop) (f g : Forest) : Prop where
  has : ∀ {n : NodeId}, f.Has n → g.Has n
  children : ∀ {n : NodeId}, f.Has n → P n → g.children n = f.children n
  head : ∀ {n : NodeId}, f.Has n → P n → g.head n = f.head n

namespace Keeps

variable {P Q : NodeId → Prop}

theorem refl (f : Forest) : f.Keeps P f := ⟨id, fun _ _ => rfl, fun _ _ => rfl⟩

theorem trans {e : Forest} (h : e.Keeps P f) (h' : f.Keeps P g) : e.Keeps P g where
  has hn := h'.has (h.has hn)
  children hn hP := (h'.children (h.has hn) hP).trans (h.children hn hP)
  head hn hP := (h'.head (h.has hn) hP).trans (h.head hn hP)

theorem mono (h : f.Keeps P g) (hPQ : ∀ n, f.Has n → Q n → P n) : f.Keeps Q g where
  has := h.has
  children hn hQ := h.children hn (hPQ _ hn hQ)
  head hn hQ := h.head hn (hPQ _ hn hQ)

section

variable (h : f.Keeps P g) (hf : f.Linked) (hg : g.Linked)
  (hpass : ∀ p, P p → ∀ c ∈ f.children p, P c)
include h hf hg hpass

/-- The same stands below a node of a set that holds with a node all its children. -/
theorem spine (hn : f.Has n) (hP : P n) : g.spine n = f.spine n := by
  refine hf.below_induction (P := fun n => P n → g.spine n = f.spine n) (fun n hn ih hP => ?_) hn hP
  have hbelow : (f.children n).map g.spine = (f.children n).map f.spine :=
    List.map_congr_left fun c hc => ih c hc (hpass n hP c hc)
  rw [hf.spine_eq hn, hg.spine_eq (h.has hn), h.children hn hP, hbelow]

theorem tree (hn : f.Has n) (hP : P n) : g.tree n = f.tree n := by
  refine hf.below_induction (P := fun n => P n → g.tree n = f.tree n) (fun n hn ih hP => ?_) hn hP
  have hbelow : (f.children n).map g.tree = (f.children n).map f.tree :=
    List.map_congr_left fun c hc => ih c hc (hpass n hP c hc)
  rw [hf.tree_eq hn, hg.tree_eq (h.has hn), h.children hn hP, h.head hn hP, hbelow]

end

section

variable (h : f.Keeps (· ≠ p) g) (hf : f.Linked) (hg : g.Linked) (hp : p ≠ .placeholder)
  (hn : f.Has n) (hu : ¬ f.Under p n)
include h hf hg hp hn hu

/-- If one node alone has changed, the same stands below every node that it does not stand under. -/
theorem spine_of_not_under : g.spine n = f.spine n :=
  (h.mono fun _ _ hm e => hm (e ▸ .refl)).spine hf hg
    (fun _ hq _ hc => hf.not_under_of_mem_children hp hq hc) hn hu

theorem tree_of_not_under : g.tree n = f.tree n :=
  (h.mono fun _ _ hm e => hm (e ▸ .refl)).tree hf hg
    (fun _ hq _ hc => hf.not_under_of_mem_children hp hq hc) hn hu

end

/-- Every node reads as it did if all are kept. -/
theorem tree_of_has (h : f.Keeps (fun _ => True) g) (hf : f.Linked) (hg : g.Linked) (hn : f.Has n) :
    g.tree n = f.tree n :=
  h.tree hf hg (fun _ _ _ _ => trivial) hn trivial

end Keeps

end MathTree.Forest

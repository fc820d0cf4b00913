import MathTree.Proofs.Action.Anchors

/-!
# Placing a node below another

An insertion and an exchange of children do just what they say, and `Forest.Placed` says it of both:
a node holds new children, the one that was placed there is gone from where it was, and no other link
and no value has changed.  An insertion is refused for the first of four reasons or places the node
(`Reachable.insertAt_places`), and an exchange places it where another child was
(`Reachable.replaceAt_places`).
-/

namespace MathTree

open Forest

variable {e f g : Forest} {m n p c d old : NodeId} {i : Nat} {l gone : List NodeId}

namespace Forest

/-- A node now holds these children, and one that was placed among them has it as its parent.  What
held that one before holds it no more, the nodes that are gone have no parent, and all other links are
as they were.  Of what nodes say of themselves, only the counts of both parents are new. -/
structure Placed (f g : Forest) (p : NodeId) (l : List NodeId) (c : NodeId) (gone : List NodeId) :
    Prop where
  has : ∀ n, g.Has n ↔ f.Has n
  children : ∀ q, g.children q
    = if q = p then l else if f.parent c = some q then (f.children q).erase c else f.children q
  parent : ∀ d, g.parent d
    = if d = c ∧ c ≠ .placeholder then some p
      else if d ∈ gone ∧ d ≠ .placeholder then none else f.parent d
  head : ∀ q, g.head q
    = if q = p ∨ f.parent c = some q then (f.head q).recounted ((g.children q).map f.kind)
      else f.head q

theorem Placed.kind (h : f.Placed g p l c gone) (n : NodeId) : g.kind n = f.kind n := by
  rw [Forest.kind, h.head]
  split_ifs <;> rfl

/-- A leaf has its value still. -/
theorem Placed.head_of_isLeaf (h : f.Placed g p l c gone) (hn : (f.head n).isLeaf) :
    g.head n = f.head n := by
  rw [h.head]
  split_ifs
  · exact (f.head n).recounted_of_isLeaf _ hn
  · rfl

/-! ### Placing a node that has no parent -/

section

variable (hp : e.Has p) (hc : e.Has c) (hfree : e.parent c = none)
include hp hc hfree

theorem placed_link (i : Nat) :
    e.Placed (e.link p i c) p ((e.children p).insertIdx i c) c [] := by
  have hr := rehung_link hp i c
  refine ⟨fun _ => has_link, fun q => ?_, fun d => ?_, fun q => ?_⟩
  · rw [hr.children, hfree, if_neg (Option.some_ne_none q).symm]
  · rw [hr.parent]
    simp [hc]
  · rw [hr.head, hr.children, hfree]
    by_cases hq : q = p
    · simp [hq]
    · simp [hq]

theorem placed_exchange (hi : (e.children p)[i]? = some old) (hold : e.Has old) :
    e.Placed ((e.unlink p i old).link p i c) p ((e.children p).set i c) c [old] := by
  have hu := rehung_unlink hp i old
  have hr := rehung_link (f := e.unlink p i old) (has_unlink.2 hp) i c
  have hlt := (List.getElem?_eq_some_iff.1 hi).1
  have hset : ((e.children p).eraseIdx i).insertIdx i c = (e.children p).set i c :=
    List.insertIdx_eraseIdx_self (Nat.ne_of_lt hlt) c
  rw [hu.children, if_pos rfl, hset] at hr
  have hkind : (e.unlink p i old).kind = e.kind := funext fun n => hu.kind n
  refine ⟨fun _ => has_link.trans has_unlink, fun q => ?_, fun d => ?_, fun q => ?_⟩
  · rw [hr.children, hu.children, hfree, if_neg (Option.some_ne_none q).symm]
    split_ifs <;> rfl
  · rw [hr.parent, hu.parent]
    by_cases hd : d = old
    · simp [hc, hold, hd, has_unlink]
    · simp [hc, hd, has_unlink]
  · rw [hr.head, hr.children, hu.head, hu.head, hfree, hkind]
    by_cases hq : q = p
    · simp [hq]
    · simp [hq]

end

/-! ### Placing a node that is taken away first -/

/-- The children that a node holds besides one that is to be placed anew.  The placeholder can stand in
many places at once and is not taken away from any. -/
def others (f : Forest) (p c : NodeId) : List NodeId :=
  if c = .placeholder then f.children p else (f.children p).erase c

namespace Linked

variable (h : f.Linked)
include h

theorem children_detach_self (p c : NodeId) : (f.detach c).children p = f.others p c := by
  rw [h.children_detach, others]
  by_cases hc : c = .placeholder
  · rw [if_pos hc, if_neg]
    rw [hc, h.parent_placeholder]
    exact (Option.some_ne_none p).symm
  · rw [if_neg hc]
    split_ifs with hp
    · rfl
    · exact (List.erase_of_not_mem fun hm => hp ((h.parent_iff hc).2 hm)).symm

theorem head_detach (n : NodeId) : (f.detach c).head n
    = if f.parent c = some n then (f.head n).recounted (((f.children n).erase c).map f.kind)
      else f.head n := by
  cases hp : f.parent c with
  | none => rw [detach_of_parent_none hp, if_neg (Option.some_ne_none n).symm]
  | some p =>
    rw [(h.rehung_detach hp).head]
    simp only [Option.some.injEq, eq_comm (a := p)]
    split_ifs with hn
    · rw [hn]
    · rfl

theorem kind_detach (n : NodeId) : (f.detach c).kind n = f.kind n := by
  rw [Forest.kind, h.head_detach]
  split_ifs <;> rfl

/-- To place a node is to take it away from its parent and to place it then. -/
theorem placed (hg : (f.detach c).Placed g p l c gone) : f.Placed g p l c gone := by
  have hfree : (f.detach c).parent c = none := by rw [h.parent_detach, if_pos rfl]
  have hkind : (f.detach c).kind = f.kind := funext h.kind_detach
  refine ⟨fun n => (hg.has n).trans has_detach, fun q => ?_, fun d => ?_, fun q => ?_⟩
  · rw [hg.children, hfree, if_neg (Option.some_ne_none q).symm, h.children_detach]
  · rw [hg.parent, h.parent_detach]
    by_cases hd : d = c
    · by_cases hc : c = .placeholder
      · simp [hd, hc, h.parent_placeholder]
      · simp [hd, hc]
    · simp [hd]
  · rw [hg.head, hfree, hkind, h.head_detach]
    by_cases hq : f.parent c = some q
    · by_cases hqp : q = p
      · simp [hq, hqp]
      · simp [hq, hqp, hg.children, hfree, h.children_detach]
    · simp [hq]

theorem placed_insert (hp : f.Has p) (hc : f.Has c) (i : Nat) :
    f.Placed ((f.detach c).link p i c) p ((f.others p c).insertIdx i c) c [] := by
  have hfree : (f.detach c).parent c = none := by rw [h.parent_detach, if_pos rfl]
  have hplaced := placed_link (has_detach.2 hp) (has_detach.2 hc) hfree i
  rw [h.children_detach_self] at hplaced
  exact h.placed hplaced

theorem placed_last (hp : f.Has p) (hc : f.Has c) :
    f.Placed ((f.detach c).link p (f.roomTaken p c) c) p (f.others p c ++ [c]) c [] := by
  have hroom : f.roomTaken p c = (f.others p c).length := by
    rw [← h.children_detach_self, h.length_children_detach]
  have hplaced := h.placed_insert hp hc (f.others p c).length
  rwa [List.insertIdx_length_self, ← hroom] at hplaced

end Linked

/-! ### Insertions -/

namespace Linked

variable (h : f.Linked)
include h

/-- A node that can have children stands below another if the other is on its way up. -/
theorem mem_lineage_iff_mem_members (hp : f.Has p) (hc : f.Has c)
    (hl : (f.head p).isLeaf = false) : c ∈ f.lineage p ↔ p ∈ f.members c := by
  have hne : p ≠ .placeholder := by
    rintro rfl
    rw [h.head_placeholder] at hl
    exact absurd hl (by decide)
  rw [h.mem_lineage_iff hp, h.mem_members_iff hc, and_iff_right hne]

theorem adoptFault?_eq (hp : f.Has p) (hc : f.Has c) : f.adoptFault? p c
    = if (f.head p).isLeaf then some (.childless (f.kind p))
      else if p ∈ f.members c then some .cycle else none := by
  unfold adoptFault?
  by_cases hl : (f.head p).isLeaf
  · rw [if_pos hl, if_pos hl]
  · simp only [h.mem_lineage_iff_mem_members hp hc (Bool.eq_false_iff.2 hl)]

end Linked

theorem roomFault?_eq : f.roomFault? p c
    = if (f.head p).strict ∧ (f.head p).capacity.any (· ≤ f.roomTaken p c) then
        some (.arity (f.kind p) ((f.head p).capacity.getD 0) (f.roomTaken p c + 1))
      else none := by
  unfold roomFault?
  cases (f.head p).capacity with
  | none => simp
  | some capacity => simp [and_comm]

/-- The four reasons not to insert a node, in the order in which they are looked for. -/
theorem Linked.insertFault?_eq (h : f.Linked) (hp : f.Has p) (hc : f.Has c) :
    f.insertFault? p i c =
      if (f.head p).isLeaf then some (.childless (f.kind p))
      else if p ∈ f.members c then some .cycle
      else if (f.head p).strict ∧ (f.head p).capacity.any (· ≤ f.roomTaken p c) then
        some (.arity (f.kind p) ((f.head p).capacity.getD 0) (f.roomTaken p c + 1))
      else if f.roomTaken p c < i then some (.outOfRange i (f.roomTaken p c))
      else none := by
  simp only [insertFault?, h.adoptFault?_eq hp hc, roomFault?_eq]
  split_ifs <;> rfl

theorem Linked.insertFault?_none_iff (h : f.Linked) (hp : f.Has p) (hc : f.Has c) :
    f.insertFault? p i c = none ↔ (f.head p).isLeaf = false ∧ p ∉ f.members c ∧
      ((f.head p).strict → ∀ k, (f.head p).capacity = some k → f.roomTaken p c < k) ∧
      i ≤ f.roomTaken p c := by
  rw [insertFault?_eq_none_iff, adoptFault?_eq_none_iff, roomFault?_eq_none_iff, and_assoc]
  refine and_congr_right fun hl => ?_
  rw [h.mem_lineage_iff_mem_members hp hc hl]
  exact and_congr_right fun _ => and_congr_left fun _ =>
    ⟨fun hroom hs k hk => hroom k hk hs, fun hroom k hk hs => hroom hs k hk⟩

theorem run_insertAt_fst : ((Edit.insertAt p i c).run f).1
    = (f.insertFault? p i c).elim (.ok ()) .error := by
  rw [Edit.run_insertAt]
  cases f.insertFault? p i c <;> rfl

theorem run_insertAt_eq_ok_iff :
    ((Edit.insertAt p i c).run f).1 = .ok () ↔ f.insertFault? p i c = none := by
  rw [run_insertAt_fst]
  cases f.insertFault? p i c <;> simp

/-- Inserting a node finds one of four faults or places the node.  A leaf has no children, no node is
put below itself, a strict node that is full takes in no more, and the position, which counts once the
node is away from wherever it was, must not lie behind the children. -/
theorem Reachable.insertAt_places (hf : f.Reachable) (hp : f.Has p) (hc : f.Has c) (i : Nat) :
    let n := (f.children p).length - if c ≠ .placeholder ∧ c ∈ f.children p then 1 else 0
    let run := (Edit.insertAt p i c).run f
    (run.1 =
      if (f.head p).isLeaf then .error (.childless (f.kind p))
      else if p ∈ f.members c then .error .cycle
      else if (f.head p).strict ∧ (f.head p).capacity.any (· ≤ n) then
        .error (.arity (f.kind p) ((f.head p).capacity.getD 0) (n + 1))
      else if n < i then .error (.outOfRange i n)
      else .ok ()) ∧
    (run.1 = .ok () ↔ (f.head p).isLeaf = false ∧ p ∉ f.members c ∧
      ((f.head p).strict → ∀ k, (f.head p).capacity = some k → n < k) ∧ i ≤ n) ∧
    (run.1 = .ok () →
      f.Placed run.2 p ((f.others p c).insertIdx i c) c [] ∧
        (∀ m, run.2.kind m = f.kind m) ∧ ∀ m, (f.head m).isLeaf → run.2.head m = f.head m) ∧
    (Edit.append p c).run f = (Edit.insertAt p n c).run f ∧
    (Edit.prepend p c).run f = (Edit.insertAt p 0 c).run f := by
  intro n run
  have h := hf.linked
  have hn : f.roomTaken p c = n := by simp only [roomTaken, isMovingWithin_iff, n]
  refine ⟨?_, ?_, fun hok => ?_, by rw [Edit.run_append, hn], rfl⟩
  · rw [run_insertAt_fst, h.insertFault?_eq hp hc, hn]
    split_ifs <;> rfl
  · rw [run_insertAt_eq_ok_iff, h.insertFault?_none_iff hp hc, hn]
  · have hplaced : f.Placed run.2 p ((f.others p c).insertIdx i c) c [] := by
      have hrun : run.2 = (f.detach c).link p i c := by
        simp only [run, Edit.run_insertAt, run_insertAt_eq_ok_iff.1 hok]
      rw [hrun]
      exact h.placed_insert hp hc i
    exact ⟨hplaced, hplaced.kind, fun m hm => hplaced.head_of_isLeaf hm⟩

/-- A sum, node one, that holds the placeholder on both sides of a name, and a product, node three,
that holds another. -/
def flankedName : List Action :=
  [.plant (.ofKind .plus), .plant (.identifier "x"), .plant (.ofKind .times), .plant (.identifier "y"),
    .append ⟨1⟩ .placeholder, .append ⟨1⟩ ⟨2⟩, .append ⟨1⟩ .placeholder, .append ⟨3⟩ ⟨4⟩]

/-- The name moves behind both places of the placeholder, which stays in them. -/
theorem insertAt_places_flankedName :
    let f := start.run flankedName
    let run := (Edit.insertAt ⟨1⟩ 2 ⟨2⟩).run f
    (f.Reachable ∧ f.Has ⟨1⟩ ∧ f.Has ⟨2⟩) ∧ run.1 = .ok () ∧
      f.Placed run.2 ⟨1⟩ [.placeholder, .placeholder, ⟨2⟩] ⟨2⟩ [] := by
  have hf : (start.run flankedName).Reachable := Reachable.start.run (by decide)
  obtain ⟨-, hok, hplaced, -⟩ := hf.insertAt_places (p := ⟨1⟩) (c := ⟨2⟩) (by decide) (by decide) 2
  have hrun := hok.2 (by decide +kernel)
  exact ⟨⟨hf, by decide, by decide⟩, hrun, (hplaced hrun).1⟩

/-! ### Exchanges -/

/-- The children of a node once another one is in the place of the child at a position.  The one that
came is not left where it was among them before. -/
def exchanged (f : Forest) (p : NodeId) (i : Nat) (c : NodeId) : List NodeId :=
  if c ≠ .placeholder ∧ c ∈ f.children p then
    ((f.children p).set i c).eraseIdx ((f.children p).idxOf c)
  else (f.children p).set i c

namespace Linked

variable (h : f.Linked)
include h

theorem positionOf_eq_some_iff (hne : c ≠ .placeholder) :
    f.positionOf p c = some i ↔ (f.children p)[i]? = some c := by
  refine ⟨fun hi => ?_, fun hi => ?_⟩
  · obtain ⟨hlt, hget, -⟩ := List.idxOf?_eq_some_iff.1 hi
    rw [List.getElem?_eq_getElem hlt, hget]
  · cases hj : f.positionOf p c with
    | none => exact absurd (List.mem_of_getElem? hi) (List.idxOf?_eq_none_iff.1 hj)
    | some j =>
      obtain ⟨hlt, hget, -⟩ := List.idxOf?_eq_some_iff.1 hj
      by_contra hji
      refine not_mem_eraseIdx (h.once p hne) hi (List.mem_eraseIdx_iff_getElem?.2 ⟨j, ?_, ?_⟩)
      · exact fun e => hji (congrArg some e)
      · rw [List.getElem?_eq_getElem hlt, hget]

/-- To write a node into its slot is to write it first and to strike it out where it was then. -/
theorem set_slot (hc : ¬ (c ≠ .placeholder ∧ f.positionOf p c = some i)) :
    ((f.detach c).children p).set (f.slot p i c) c = f.exchanged p i c := by
  rw [h.children_detach_self, others, exchanged, slot]
  by_cases hne : c = .placeholder
  · simp [hne]
  rw [if_neg hne, if_neg hne]
  cases hj : f.positionOf p c with
  | none =>
    have hm : c ∉ f.children p := List.idxOf?_eq_none_iff.1 hj
    have hout : ¬ (c ≠ .placeholder ∧ c ∈ f.children p) := fun e => hm e.2
    rw [if_neg hout, List.erase_of_not_mem hm]
    rfl
  | some j =>
    obtain ⟨hlt, hget, -⟩ := List.idxOf?_eq_some_iff.1 hj
    have hidx : (f.children p).idxOf c = j := by
      rw [List.idxOf_eq_getD_idxOf?, show (f.children p).idxOf? c = some j from hj,
        Option.getD_some]
    have hin : c ≠ .placeholder ∧ c ∈ f.children p := ⟨hne, hget ▸ List.getElem_mem hlt⟩
    rw [if_pos hin, hidx, List.erase_eq_eraseIdx_of_idxOf hidx]
    simp only [Option.any_some, decide_eq_true_eq]
    rcases Nat.lt_trichotomy j i with hji | rfl | hij
    · rw [if_pos hji, List.eraseIdx_set_lt hji]
    · exact absurd ⟨hne, hj⟩ hc
    · rw [if_neg (Nat.not_lt_of_gt hij), List.eraseIdx_set_gt hij]

theorem placed_replace (hp : f.Has p) (hc : f.Has c) (hold : (f.children p)[i]? = some old)
    (hne : ¬ (c ≠ .placeholder ∧ f.positionOf p c = some i)) :
    f.Placed (((f.detach c).unlink p (f.slot p i c) old).link p (f.slot p i c) c) p
      (f.exchanged p i c) c [old] := by
  have hfree : (f.detach c).parent c = none := by rw [h.parent_detach, if_pos rfl]
  have hslot := (h.getElem?_slot hne).trans hold
  have hplaced := placed_exchange (has_detach.2 hp) (has_detach.2 hc) hfree hslot
    (has_detach.2 (h.has_of_mem (List.mem_of_getElem? hold)))
  rw [h.set_slot hne] at hplaced
  exact h.placed hplaced

end Linked

/-- Exchanging a child that is shown for a node that may be taken in names the old child, and leaves all
as it is if that already is the node.  Otherwise the node is placed where the old child was, and that
is on its own and no longer anchored. -/
theorem Reachable.replaceAt_places (hf : f.Reachable) (hp : f.Has p) (hc : f.Has c)
    (hi : i < f.childCount p) (hm : p ∉ f.members c) :
    ∃ old g, (f.children p)[i]? = some old ∧ (Edit.replaceAt p i c).run f = (.ok old, g) ∧
      (c ≠ .placeholder ∧ c = old → g = f) ∧
      (¬ (c ≠ .placeholder ∧ c = old) →
        f.Placed g p (f.exchanged p i c) c [old] ∧ (∀ n, g.kind n = f.kind n) ∧
        (∀ n, (f.head n).isLeaf → g.head n = f.head n) ∧
        (old ≠ .placeholder → g.parent old = none ∧ ∀ n ∈ g.members old, g.anchor n = none)) := by
  have h := hf.linked
  obtain ⟨old, hold, hat⟩ := childAt_of_lt hi
  have hl : (f.head p).isLeaf = false := by
    by_contra hl
    rw [h.leaf (by simpa using hl)] at hold
    cases hold
  have hadopt : f.adoptFault? p c = none := by
    rw [h.adoptFault?_eq hp hc, if_neg (Bool.eq_false_iff.1 hl), if_neg hm]
  have hrun := Edit.run_replaceAt (p := p) (i := i) (c := c) h
  simp only [hadopt, hat] at hrun
  have hiff : (c ≠ .placeholder ∧ f.positionOf p c = some i) ↔ c ≠ .placeholder ∧ c = old :=
    and_congr_right fun hne => by
      rw [h.positionOf_eq_some_iff hne, hold, Option.some_inj, eq_comm]
  by_cases hsame : c ≠ .placeholder ∧ c = old
  · rw [if_pos (hiff.2 hsame)] at hrun
    exact ⟨old, f, hold, hsame.2 ▸ hrun, fun _ => rfl, fun hn => absurd hsame hn⟩
  · have hne := fun e => hsame (hiff.1 e)
    rw [if_neg hne] at hrun
    have ha : f.Admits (.replaceAt p i c) := by simp [Admits, Action.nodes, hp, hc]
    have hafter : (Edit.replaceAt p i c).run f = (.ok old, f.after (.replaceAt p i c)) := by
      rw [after_map rfl, hrun]
    have hplaced : f.Placed (f.after (.replaceAt p i c)) p (f.exchanged p i c) c [old] := by
      rw [after_map rfl, hrun]
      exact h.placed_replace hp hc hold hne
    refine ⟨old, _, hold, hafter, fun e => absurd e hsame, fun _ => ⟨hplaced, hplaced.kind,
      fun n hn => hplaced.head_of_isLeaf hn, fun holdne => ?_⟩⟩
    have hmem := List.mem_of_getElem? hold
    have hparent : (f.parent old).isSome := by
      rw [(h.parent_iff holdne).2 hmem]
      rfl
    have hfree : (f.after (.replaceAt p i c)).parent old = none := by
      rw [hplaced.parent, if_neg fun e => hsame ⟨e.2, e.1.symm⟩,
        if_pos ⟨List.mem_singleton_self old, holdne⟩]
    refine ⟨hfree, fun n hn => unanchored_of_releases h ha ⟨trivial, hparent, hfree⟩ ?_⟩
    exact (((h.after ha).mem_members_iff ((hplaced.has old).2 (h.has_of_mem hmem))).1 hn).2

/-- A quotient, node one, of a product, node two, with two names, nodes three and four, and of a third
name, node five; all of it is anchored. -/
def nestedQuotient : List Action :=
  [.openContainer 3 2, .plant (.ofKind .divide), .plant (.ofKind .times), .plant (.identifier "x"),
    .plant (.identifier "y"), .plant (.identifier "z"), .append ⟨2⟩ ⟨3⟩, .append ⟨2⟩ ⟨4⟩,
    .append ⟨1⟩ ⟨2⟩, .append ⟨1⟩ ⟨5⟩, .anchor ⟨1⟩ ⟨0⟩]

/-- A name takes the place of the product that it stands in. -/
theorem replaceAt_places_nestedQuotient :
    let f := start.run nestedQuotient
    (f.Reachable ∧ f.Has ⟨1⟩ ∧ f.Has ⟨4⟩ ∧ 0 < f.childCount ⟨1⟩ ∧ ⟨1⟩ ∉ f.members ⟨4⟩) ∧
      ∃ g, (Edit.replaceAt ⟨1⟩ 0 ⟨4⟩).run f = (.ok ⟨2⟩, g) ∧
        f.Placed g ⟨1⟩ [⟨4⟩, ⟨5⟩] ⟨4⟩ [⟨2⟩] ∧ g.parent ⟨2⟩ = none ∧
        f.anchor ⟨2⟩ = some ⟨0⟩ ∧ ∀ n ∈ g.members ⟨2⟩, g.anchor n = none := by
  have hf : (start.run nestedQuotient).Reachable := Reachable.start.run (by decide)
  have hpre : (start.run nestedQuotient).Has ⟨1⟩ ∧ (start.run nestedQuotient).Has ⟨4⟩ ∧
      0 < (start.run nestedQuotient).childCount ⟨1⟩ ∧
      ⟨1⟩ ∉ (start.run nestedQuotient).members ⟨4⟩ := by decide +kernel
  obtain ⟨hp, hc, hi, hm⟩ := hpre
  obtain ⟨old, g, hold, hrun, -, hg⟩ := hf.replaceAt_places hp hc hi hm
  obtain rfl : ⟨2⟩ = old := Option.some.inj (Eq.trans (by decide +kernel) hold)
  obtain ⟨hplaced, -, -, hgone⟩ := hg (by decide)
  obtain ⟨hparent, hanchor⟩ := hgone (by decide)
  exact ⟨⟨hf, hp, hc, hi, hm⟩, g, hrun, hplaced, hparent, by decide +kernel, hanchor⟩

end Forest

end MathTree

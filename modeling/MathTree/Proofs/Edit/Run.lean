import MathTree.Proofs.Forest.Region

/-!
# Running edits

The result of an edit and the forest that it leaves, one equation for each way of putting edits
together (`run_bind`, …) and one for each of the basic edits.  `Edit.insertAt` either finds a fault
(`Forest.insertFault?`) and leaves the forest alone, or takes the child away from its parent and
links it in; `Edit.replaceAt` either finds a fault, or finds the child in its place, or exchanges it
for the old one (`run_replaceAt`).
-/

namespace MathTree

variable {α β : Type} {f g : Forest} {p c n : NodeId} {i : Nat}

/-- No node shows more children than it holds. -/
theorem Head.shown_le (h : Head) (k : Nat) : h.shown k ≤ k := by
  unfold shown
  split
  · split_ifs <;> omega
  · exact Nat.le_refl _

namespace Edit

/-! ### Putting edits together -/

theorem run_pure (a : α) : (pure a : Edit α).run f = (.ok a, f) := rfl

theorem run_throw (fault : Fault) : (throw fault : Edit α).run f = (.error fault, f) := rfl

theorem run_get : (get : Edit Forest).run f = (.ok f, f) := rfl

theorem run_modify (change : Forest → Forest) :
    (modify change : Edit Unit).run f = (.ok (), change f) := rfl

theorem run_modifyGet (change : Forest → α × Forest) :
    (modifyGet change : Edit α).run f = (.ok (change f).1, (change f).2) := rfl

theorem run_lift (x : Except Fault α) : (liftM x : Edit α).run f = (x, f) := rfl

theorem run_bind (e : Edit α) (k : α → Edit β) :
    (e >>= k).run f = match (e.run f).1 with
      | .ok a => (k a).run (e.run f).2
      | .error fault => (.error fault, (e.run f).2) := by
  change (ExceptT.bindCont k (e.run f).1) (e.run f).2 = _
  cases (e.run f).1 <;> rfl

theorem run_tryCatch (e : Edit α) (k : Fault → Edit α) :
    (tryCatch e k).run f = match (e.run f).1 with
      | .ok a => (.ok a, (e.run f).2)
      | .error fault => (k fault).run (e.run f).2 := by
  rw [ExceptT.run_tryCatch]
  change (StateT.run (_ >>= _) f : Id _) = _
  rw [StateT.run_bind]
  simp only [StateT.run, bind]
  cases e.run f with
  | mk r g => cases r <;> rfl

theorem run_map (e : Edit α) (k : α → β) :
    (k <$> e).run f = ((e.run f).1.map k, (e.run f).2) := by
  change (e >>= fun a => pure (k a)).run f = _
  rw [run_bind]
  cases (e.run f).1 <;> rfl

theorem run_discard (e : Edit α) :
    (discard e).run f = ((e.run f).1.map fun _ => (), (e.run f).2) := run_map e _

theorem run_ite (b : Prop) [Decidable b] (e e' : Edit α) :
    (if b then e else e').run f = if b then e.run f else e'.run f := by
  split_ifs <;> rfl

end Edit

namespace Forest

/-! ### Inserting -/

/-- The fault of a node as the parent of another, if there is one. -/
def adoptFault? (f : Forest) (p c : NodeId) : Option Fault :=
  if (f.head p).isLeaf then some (.childless (f.kind p))
  else if c ∈ f.lineage p then some .cycle else none

/-- The fault of a node that is strict and full. -/
def roomFault? (f : Forest) (p c : NodeId) : Option Fault :=
  match (f.head p).capacity with
  | some capacity =>
    if capacity ≤ f.roomTaken p c && (f.head p).strict then
      some (.arity (f.kind p) capacity (f.roomTaken p c + 1))
    else none
  | none => none

/-- The fault that is found when a node is to be inserted at a position, if there is one. -/
def insertFault? (f : Forest) (p : NodeId) (i : Nat) (c : NodeId) : Option Fault :=
  match f.adoptFault? p c with
  | some fault => some fault
  | none => match f.roomFault? p c with
    | some fault => some fault
    | none => if f.roomTaken p c < i then some (.outOfRange i (f.roomTaken p c)) else none

theorem adoptFault?_eq_none_iff :
    f.adoptFault? p c = none ↔ (f.head p).isLeaf = false ∧ c ∉ f.lineage p := by
  unfold adoptFault?
  split_ifs <;> simp_all

/-- A node can adopt its own children again. -/
theorem Linked.adoptFault?_of_parent (h : f.Linked) (hc : f.parent c = some p) :
    f.adoptFault? p c = none := by
  refine adoptFault?_eq_none_iff.2 ⟨h.isLeaf_of_parent hc, fun hm => ?_⟩
  exact h.acyclic p (.tail' ((h.mem_lineage_iff (h.has_of_parent hc)).1 hm) hc)

theorem roomFault?_eq_none_iff : f.roomFault? p c = none ↔
    ∀ capacity, (f.head p).capacity = some capacity → (f.head p).strict →
      f.roomTaken p c < capacity := by
  unfold roomFault?
  cases (f.head p).capacity with
  | none => simp
  | some capacity => cases (f.head p).strict <;> simp

theorem insertFault?_eq_none_iff : f.insertFault? p i c = none ↔
    f.adoptFault? p c = none ∧ f.roomFault? p c = none ∧ i ≤ f.roomTaken p c := by
  unfold insertFault?
  cases f.adoptFault? p c with
  | some fault => simp
  | none =>
    cases f.roomFault? p c with
    | some fault => simp
    | none => simp

/-- The position of the child to be replaced, once the child that takes its place is away. -/
def slot (f : Forest) (p : NodeId) (i : Nat) (c : NodeId) : Nat :=
  if (if c = .placeholder then none else f.positionOf p c).any (· < i) then i - 1 else i

theorem isMovingWithin_iff : f.isMovingWithin p c = true ↔ c ≠ .placeholder ∧ c ∈ f.children p := by
  simp [isMovingWithin, positionOf]

/-- The room that is taken is the number of children that are there once the child is away. -/
theorem Linked.length_children_detach (h : f.Linked) :
    ((f.detach c).children p).length = f.roomTaken p c := by
  rw [h.children_detach, roomTaken]
  split_ifs with hp hm hm
  · rw [List.length_erase_of_mem (isMovingWithin_iff.1 hm).2]
  · exact absurd (isMovingWithin_iff.2 ⟨h.ne_placeholder_of_parent hp, h.mem_of_parent hp⟩) hm
  · obtain ⟨hne, hc⟩ := isMovingWithin_iff.1 hm
    exact absurd ((h.parent_iff hne).2 hc) hp
  · rfl

theorem Linked.roomTaken_of_free (h : f.Linked) (hc : f.parent c = none) :
    f.roomTaken p c = (f.children p).length := by
  rw [← h.length_children_detach, detach_of_parent_none hc]

/-! ### Replacing -/

theorem childCount_le (f : Forest) (p : NodeId) : f.childCount p ≤ (f.children p).length :=
  (f.head p).shown_le _

theorem childCount_of_capacity (h : (f.head p).capacity = none) :
    f.childCount p = (f.children p).length := by
  rw [childCount, Head.shown, h]

theorem childAt_of_lt (hi : i < f.childCount p) :
    ∃ old, (f.children p)[i]? = some old ∧ f.childAt p i = .ok old := by
  have hlt := Nat.lt_of_lt_of_le hi (f.childCount_le p)
  refine ⟨(f.children p)[i], List.getElem?_eq_getElem hlt, ?_⟩
  simp [childAt, shown, hi, List.getElem?_eq_getElem hlt]

theorem childAt_of_le (hi : f.childCount p ≤ i) :
    f.childAt p i = .error (.outOfRange i (f.childCount p)) := by
  have hlen : (f.shown p).length ≤ i := Nat.le_trans (List.length_take_le _ _) hi
  rw [childAt, List.getElem?_eq_none hlen]

theorem getElem?_of_childAt (hat : f.childAt p i = .ok c) : (f.children p)[i]? = some c := by
  by_cases hi : f.childCount p ≤ i
  · rw [childAt_of_le hi] at hat
    cases hat
  · obtain ⟨old, hold, hat'⟩ := childAt_of_lt (Nat.lt_of_not_le hi)
    rw [hold, Except.ok.inj (hat'.symm.trans hat)]

/-- The child to be replaced stands at its slot once the other one is away. -/
theorem Linked.getElem?_slot (h : f.Linked)
    (hc : ¬ (c ≠ .placeholder ∧ f.positionOf p c = some i)) :
    ((f.detach c).children p)[f.slot p i c]? = (f.children p)[i]? := by
  rw [h.children_detach, slot]
  by_cases hne : c = .placeholder
  · rw [hne, h.parent_placeholder]
    simp
  · rw [if_neg hne]
    cases hj : f.positionOf p c with
    | none =>
      have hp : f.parent c ≠ some p := fun hp =>
        List.idxOf?_eq_none_iff.1 hj (h.mem_of_parent hp)
      simp [hp]
    | some j =>
      obtain ⟨hlt, hget, -⟩ := List.idxOf?_eq_some_iff.1 hj
      have hp : f.parent c = some p := (h.parent_iff hne).2 (hget ▸ List.getElem_mem hlt)
      have hji : j ≠ i := fun e => hc ⟨hne, e ▸ hj⟩
      rw [if_pos hp, List.erase_eq_eraseIdx, show (f.children p).idxOf? c = some j from hj]
      simp only [Option.any_some, decide_eq_true_eq, List.getElem?_eraseIdx]
      split_ifs with h₁ h₂ h₂
      · omega
      · rw [Nat.sub_add_cancel (by omega)]
      · rfl
      · omega

end Forest

namespace Edit

theorem run_checkAdopt : (checkAdopt p c).run f = match f.adoptFault? p c with
    | some fault => (.error fault, f)
    | none => (.ok (), f) := by
  simp only [checkAdopt, run_bind, run_get, run_ite, run_throw, run_pure, Forest.adoptFault?]
  split_ifs <;> rfl

theorem run_checkRoom : (checkRoom p c).run f = match f.roomFault? p c with
    | some fault => (.error fault, f)
    | none => (.ok (), f) := by
  simp only [checkRoom, run_bind, run_get, Forest.roomFault?]
  cases (f.head p).capacity with
  | none => rfl
  | some capacity =>
    simp only [run_ite, run_throw, run_pure]
    split_ifs <;> rfl

theorem run_insertAt : (insertAt p i c).run f = match f.insertFault? p i c with
    | some fault => (.error fault, f)
    | none => (.ok (), (f.detach c).link p i c) := by
  simp only [insertAt, run_bind, run_checkAdopt, Forest.insertFault?]
  cases f.adoptFault? p c with
  | some fault => rfl
  | none =>
    simp only [run_checkRoom]
    cases f.roomFault? p c with
    | some fault => rfl
    | none =>
      simp only [run_get, run_ite, run_bind, run_throw, run_modify]
      split_ifs <;> rfl

theorem run_append : (append p c).run f = (insertAt p (f.roomTaken p c) c).run f := by
  simp only [append, run_bind, run_get]

theorem run_unlinkAt? : (unlinkAt? p i).run f
    = (.ok (f.children p)[i]?, ((f.children p)[i]?).elim f (f.unlink p i)) := by
  simp only [unlinkAt?, run_modifyGet, Forest.unlinkAt?]
  cases (f.children p)[i]? <;> rfl

theorem run_drop : (drop n).run f
    = (.ok (), if n = .placeholder ∨ (f.parent n).isSome then f else f.discard n) := by
  simp only [drop, run_bind, run_get, run_ite, run_pure, run_modify]
  split_ifs <;> first | rfl | simp_all

theorem run_replaceAt (h : f.Linked) : (replaceAt p i c).run f = match f.adoptFault? p c with
    | some fault => (.error fault, f)
    | none => match f.childAt p i with
      | .error fault => (.error fault, f)
      | .ok old =>
        if c ≠ .placeholder ∧ f.positionOf p c = some i then (.ok c, f)
        else (.ok old,
          ((f.detach c).unlink p (f.slot p i c) old).link p (f.slot p i c) c) := by
  simp only [replaceAt, run_bind, run_checkAdopt]
  cases f.adoptFault? p c with
  | some fault => rfl
  | none =>
    simp only [run_get, run_ite, run_bind, run_throw]
    by_cases hi : f.childCount p ≤ i
    · rw [if_pos hi, Forest.childAt_of_le hi]
    · obtain ⟨old, hold, hat⟩ := Forest.childAt_of_lt (Nat.lt_of_not_le hi)
      rw [if_neg hi, hat]
      by_cases hc : c ≠ .placeholder ∧ f.positionOf p c = some i
      · simp [hc, run_pure]
      · have hslot := (h.getElem?_slot hc).trans hold
        have hcur : ¬ (if c = .placeholder then none else f.positionOf p c) = some i := by
          split_ifs with hne
          · simp
          · exact fun e => hc ⟨hne, e⟩
        unfold Forest.slot at hslot
        simp only [if_neg hc, if_neg hcur, run_modify, run_unlinkAt?, run_bind, hslot,
          Option.elim_some, run_pure, Forest.slot]

/-- An exchange of children leaves all as it is, or lets a child go and links in the other node. -/
theorem run_replaceAt_cases (h : f.Linked) (p : NodeId) (i : Nat) (c : NodeId) :
    ((replaceAt p i c).run f).2 = f ∨
      ∃ old, f.adoptFault? p c = none ∧ f.childAt p i = .ok old ∧
        ¬ (c ≠ .placeholder ∧ f.positionOf p c = some i) ∧
        ((replaceAt p i c).run f).2
          = ((f.detach c).unlink p (f.slot p i c) old).link p (f.slot p i c) c := by
  rw [run_replaceAt h]
  cases hadopt : f.adoptFault? p c with
  | some fault => exact .inl rfl
  | none =>
    cases hat : f.childAt p i with
    | error fault => exact .inl rfl
    | ok old =>
      dsimp only
      split_ifs with hcur
      · exact .inl rfl
      · exact .inr ⟨old, rfl, rfl, hcur, rfl⟩

end Edit

end MathTree

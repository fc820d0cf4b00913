import MathTree.Proofs.Action.Links

/-!
# Room for children

A strict node never takes in a child for which it has no room: whatever is done, it then holds no more
children than it may, or no more than it held before (`length_children_after_le`).  So as long as no
node is made lenient and no case is turned into another qualifier, no node ever holds more children
than it may, and every node shows all that it holds (`arity_enforced`).
-/

namespace MathTree

open Forest

variable {S : NodeId → Prop} {f g : Forest} {m n p c : NodeId} {i k : Nat} {action : Action}
  {actions : List Action}

/-- A qualifier that does not cease to be a case does not lose room, and neither does a node of any
other form. -/
theorem Form.capacity_le {form : Form} {kind kind' : Kind}
    (h : kind = .qualifier .piece → kind' = .qualifier .piece)
    (hk : form.capacity kind' = some k) : ∃ k' ≤ k, form.capacity kind = some k' := by
  have hqualifier (kind : Kind) :
      capacity .qualifier kind = some (if kind = .qualifier .piece then 2 else 1) := by
    cases kind with
    | qualifier q => cases q <;> rfl
    | _ => rfl
  cases form with
  | qualifier =>
    rw [hqualifier] at hk
    cases hk
    refine ⟨_, ?_, hqualifier kind⟩
    split_ifs with hp hp' hp'
    · exact Nat.le_refl 2
    · exact absurd (h hp) hp'
    · exact Nat.le_succ 1
    · exact Nat.le_refl 1
  | _ => exact ⟨k, Nat.le_refl k, hk⟩

/-- What is planted is strict. -/
theorem Seed.strict_head {seed : Seed} {head : Head} (h : seed.head? = .ok head) :
    head.strict = true := by
  cases seed with
  | ofForm form kind =>
    simp only [head?] at h
    split_ifs at h
    cases h
    rfl
  | _ =>
    cases h
    rfl

namespace Forest

/-! ### Moves -/

theorem Move.strict (hf : f.Ready S) (hm : f.Move S g) (hn : f.Has n) :
    (g.head n).strict = (f.head n).strict :=
  (hm.steps hf).head_congr Head.strict_recounted hn

theorem Move.capacity (hf : f.Ready S) (hm : f.Move S g) (hn : f.Has n) :
    (g.head n).capacity = (f.head n).capacity :=
  (hm.steps hf).head_congr Head.capacity_recounted hn

/-- Only by an insertion does a node come to hold more children, and a strict node must have room for
one more then. -/
theorem Move.length_children_le (hf : f.Linked) (hm : f.Move S g) (hn : f.Has n)
    (hstrict : (f.head n).strict) (hk : (f.head n).capacity = some k) :
    (g.children n).length ≤ max k (f.children n).length := by
  have hdetach (c : NodeId) : ((f.detach c).children n).length ≤ (f.children n).length :=
    hf.children_detach_sublist.length_le
  cases hm with
  | plant =>
    rw [children_plant]
    exact Nat.le_max_right _ _
  | graft =>
    rw [children_graft, if_neg (ne_next_of_has hn)]
    exact Nat.le_max_right _ _
  | @insert p c i hp hc h =>
    obtain ⟨-, hroom, hi⟩ := insertFault?_eq_none_iff.1 h
    rw [(rehung_link (has_detach.2 hp.1) i c).children]
    split_ifs with hnp
    · subst hnp
      have hlt := roomFault?_eq_none_iff.1 hroom k hk hstrict
      rw [List.length_insertIdx_of_le_length (hf.length_children_detach.symm ▸ hi),
        hf.length_children_detach]
      exact Nat.le_trans hlt (Nat.le_max_left _ _)
    · exact Nat.le_trans (hdetach c) (Nat.le_max_right _ _)
  | @replace p c old i hp hc _ hold =>
    have hp' := has_detach (n := c).2 hp.1
    have hlt := (List.getElem?_eq_some_iff.1 hold).1
    refine Nat.le_trans ?_ (Nat.le_max_right _ _)
    rw [(rehung_link (has_unlink.2 hp') i c).children, (rehung_unlink hp' i old).children,
      (rehung_unlink hp' i old).children, if_pos rfl]
    split_ifs with hnp
    · subst hnp
      have hlen := List.length_eraseIdx_of_lt hlt
      rw [List.length_insertIdx_of_le_length (by omega), hlen]
      have := hdetach c
      omega
    · exact hdetach c
  | @remove p c i _ hi =>
    rw [(rehung_unlink (has_of_getElem?_children hi) i c).children]
    refine Nat.le_trans ?_ (Nat.le_max_right _ _)
    split_ifs with hnp
    · rw [hnp]
      exact (List.eraseIdx_sublist _ _).length_le
    · exact Nat.le_refl _
  | free =>
    rw [children_discard]
    split_ifs
    · exact Nat.zero_le _
    · exact Nat.le_max_right _ _

theorem Moves.length_children_le (hf : f.Ready S) (hm : f.Moves S g) (hn : f.Has n)
    (hstrict : (f.head n).strict) (hk : (f.head n).capacity = some k) :
    (g.children n).length ≤ max k (f.children n).length := by
  induction hm with
  | refl => exact Nat.le_max_right _ _
  | @tail e g hfe heg ih =>
    have hs := Moves.steps hf hfe
    have hstep := heg.length_children_le (hf.moves hfe).linked (Moves.has hfe hn)
      ((hs.head_congr Head.strict_recounted hn).trans hstrict)
      ((hs.head_congr Head.capacity_recounted hn).trans hk)
    exact Nat.le_trans hstep (Nat.max_le.2 ⟨Nat.le_max_left _ _, ih⟩)

/-- Whatever is done, a node that is strict then holds no more children than it may, or no more than
it held before. -/
theorem length_children_after_le (hf : f.Linked) (ha : f.Admits action) (hn : f.Has n)
    (hstrict : (f.head n).strict) (hk : ((f.after action).head n).capacity = some k) :
    ((f.after action).children n).length ≤ max k (f.children n).length := by
  by_cases hm : action.Rearranges
  · have hmoves := moves_after hf ha hm
    have hs := hmoves.steps hf.ready
    exact hmoves.length_children_le hf.ready hn hstrict
      ((hs.head_congr Head.capacity_recounted hn).symm.trans hk)
  · refine Nat.le_trans ?_ (Nat.le_max_right _ _)
    rcases f.discards_or_annotates hm with ⟨p, hafter⟩ | hannotates
    · rw [hafter, children_discard]
      split_ifs
      · exact Nat.zero_le _
      · exact Nat.le_refl _
    · exact Nat.le_of_eq (congrArg List.length (hannotates.children n))

/-! ### Nodes that have room -/

/-- A node is strict and holds no more children than it may. -/
structure Fits (f : Forest) (n : NodeId) : Prop where
  strict : (f.head n).strict
  length_le : ∀ k, (f.head n).capacity = some k → (f.children n).length ≤ k

theorem fits_of_not_has (hn : ¬ f.Has n) : f.Fits n := by
  refine ⟨?_, fun k _ => ?_⟩
  · rw [Forest.head, get_of_not_has f hn]
    rfl
  · rw [children, get_of_not_has f hn]
    exact Nat.zero_le k

/-- A node that has room for all its children shows them all. -/
theorem Fits.shown_eq (h : f.Fits n) : f.shown n = f.children n := by
  refine List.take_of_length_le ?_
  rw [childCount, Head.shown]
  cases hk : (f.head n).capacity with
  | none => exact Nat.le_refl _
  | some k =>
    simp only [h.strict, if_true]
    exact Nat.le_min.2 ⟨Nat.le_refl _, h.length_le k hk⟩

/-- A node that is made holds nothing, or what the node holds that it is a copy of. -/
theorem Move.fits (hf : f.Ready S) (hm : f.Move S g) (h : ∀ n, f.Fits n) (n : NodeId) :
    g.Fits n := by
  by_cases hn : f.Has n
  · refine ⟨(hm.strict hf hn).trans (h n).strict, fun k hk => ?_⟩
    rw [hm.capacity hf hn] at hk
    have hle := hm.length_children_le hf.linked hn (h n).strict hk
    rwa [Nat.max_eq_left ((h n).length_le k hk)] at hle
  by_cases hng : g.Has n
  · cases hm with
    | plant hseed =>
      obtain rfl := (has_plant.1 hng).resolve_left hn
      refine ⟨?_, fun k _ => ?_⟩
      · rw [head_plant, if_pos rfl]
        exact Seed.strict_head hseed
      · rw [children_plant, children, get_next]
        exact Nat.zero_le k
    | @graft m copies _ hcopies =>
      obtain rfl := (has_graft.1 hng).resolve_left hn
      refine ⟨?_, fun k hk => ?_⟩
      · rw [head_graft, if_pos rfl]
        exact (h m).strict
      · rw [head_graft, if_pos rfl] at hk
        rw [children_graft, if_pos rfl, hcopies.length_eq]
        exact (h m).length_le k hk
    | insert => exact absurd (has_detach.1 (has_link.1 hng)) hn
    | replace => exact absurd (has_detach.1 (has_unlink.1 (has_link.1 hng))) hn
    | remove => exact absurd (has_unlink.1 hng) hn
    | free => exact absurd (has_discard.1 hng) hn
  · exact fits_of_not_has hng

theorem Moves.fits (hf : f.Ready S) (hm : f.Moves S g) (h : ∀ n, f.Fits n) (n : NodeId) :
    g.Fits n := by
  induction hm generalizing n with
  | refl => exact h n
  | tail hfe heg ih => exact heg.fits (hf.moves hfe) ih n

/-! ### Runs -/

/-- Whether an action makes a strict node lenient. -/
def Relaxes (f : Forest) (action : Action) : Prop :=
  ∃ n, f.Has n ∧ (f.head n).strict = true ∧ ((f.after action).head n).strict = false

/-- Whether an action turns a case into another qualifier. -/
def Uncases (f : Forest) (action : Action) : Prop :=
  ∃ n, f.Has n ∧ f.kind n = .qualifier .piece ∧ (f.after action).kind n ≠ .qualifier .piece

theorem exists_has_iff {P : NodeId → Prop} :
    (∃ n, f.Has n ∧ P n) ↔ ∃ i, ∃ _ : i < f.records.size, P ⟨i⟩ :=
  ⟨fun ⟨n, hn, h⟩ => ⟨n.index, hn, h⟩, fun ⟨i, hi, h⟩ => ⟨⟨i⟩, hi, h⟩⟩

instance (f : Forest) (action : Action) : Decidable (f.Relaxes action) :=
  decidable_of_iff _ exists_has_iff.symm

instance (f : Forest) (action : Action) : Decidable (f.Uncases action) :=
  decidable_of_iff _ exists_has_iff.symm

theorem fits_after (hf : f.Linked) (ha : f.Admits action) (hrelax : ¬ f.Relaxes action)
    (hcase : ¬ f.Uncases action) (h : ∀ n, f.Fits n) (n : NodeId) : (f.after action).Fits n := by
  by_cases hm : action.Rearranges
  · exact (moves_after hf ha hm).fits hf.ready h n
  by_cases hn : f.Has n
  · refine ⟨?_, fun k hk => ?_⟩
    · by_contra hlenient
      exact hrelax ⟨n, hn, (h n).strict, Bool.eq_false_iff.2 hlenient⟩
    · have hkind : f.kind n = .qualifier .piece → (f.after action).kind n = .qualifier .piece :=
        fun hpiece => by_contra fun hother => hcase ⟨n, hn, hpiece, hother⟩
      have hle := length_children_after_le hf ha hn (h n).strict hk
      rw [Head.capacity, (effect hf ha).form hn] at hk
      obtain ⟨k', hk', hbefore⟩ := Form.capacity_le hkind hk
      have := (h n).length_le k' hbefore
      omega
  · refine fits_of_not_has fun hng => hn ?_
    rcases f.discards_or_annotates hm with ⟨p, hafter⟩ | hannotates
    · rw [hafter] at hng
      exact has_discard.1 hng
    · exact (hannotates.has n).1 hng

theorem fits_start (n : NodeId) : start.Fits n := by
  obtain ⟨i⟩ := n
  cases i with
  | zero => exact ⟨rfl, fun k _ => Nat.zero_le k⟩
  | succ i => exact fits_of_not_has fun h => absurd h (by simp [Has, start])

/-- What a node can hold is enforced: a node that is strict before a call holds no more children then
than it may, or no more than before the call.  In a run that neither makes a node lenient nor turns a
case into another qualifier, no node ever holds more than it may, and every node shows all that it
holds. -/
theorem arity_enforced :
    (∀ (f : Forest) action n k, f.Reachable → f.Admits action → f.Has n → (f.head n).strict →
      ((f.after action).head n).capacity = some k →
        ((f.after action).children n).length ≤ max k (f.children n).length) ∧
    ∀ actions,
      start.Along (fun f a => f.Admits a ∧ ¬ f.Relaxes a ∧ ¬ f.Uncases a) actions →
        start.Throughout (fun f => ∀ n,
          (∀ k, (f.head n).capacity = some k → (f.children n).length ≤ k) ∧
            f.shown n = f.children n) actions := by
  refine ⟨fun f action n k hf ha hn hstrict hk =>
    length_children_after_le hf.linked ha hn hstrict hk, fun actions h => ?_⟩
  have hfits : start.Throughout (fun f => ∀ n, f.Fits n) actions :=
    throughout_of_along (fun hf ha hfit => fits_after hf.linked ha.1 ha.2.1 ha.2.2 hfit)
      (fun ha => ha.1) .start h fits_start
  exact hfits.imp fun f hfit n => ⟨(hfit n).length_le, (hfit n).shown_eq⟩

/-- Makes a quotient, node one, of two names, and asks for a third name to be put in. -/
def filledQuotient : List Action :=
  [.plant (.ofKind .divide), .plant (.identifier "x"), .append ⟨1⟩ ⟨2⟩, .plant (.identifier "y"),
    .append ⟨1⟩ ⟨3⟩, .plant (.identifier "z"), .append ⟨1⟩ ⟨4⟩]

theorem arity_enforced_filledQuotient :
    let before := start.run (filledQuotient.take 6)
    let after := start.run filledQuotient
    (before.Reachable ∧ before.Admits (.append ⟨1⟩ ⟨4⟩) ∧ before.Has ⟨1⟩ ∧
        (before.head ⟨1⟩).strict ∧ (after.head ⟨1⟩).capacity = some 2) ∧
      (after.children ⟨1⟩).length ≤ max 2 (before.children ⟨1⟩).length ∧
      before.children ⟨1⟩ = [⟨2⟩, ⟨3⟩] ∧
      start.Along (fun f a => f.Admits a ∧ ¬ f.Relaxes a ∧ ¬ f.Uncases a) filledQuotient ∧
      start.Throughout (fun f => ∀ n,
        (∀ k, (f.head n).capacity = some k → (f.children n).length ≤ k) ∧
          f.shown n = f.children n) filledQuotient := by
  have hrun : start.Along (fun f a => f.Admits a ∧ ¬ f.Relaxes a ∧ ¬ f.Uncases a) filledQuotient := by
    decide
  have hbefore : (start.run (filledQuotient.take 6)).Reachable := Reachable.start.run (by decide)
  obtain ⟨hstep, hthroughout⟩ := arity_enforced
  exact ⟨⟨hbefore, by decide, by decide, by decide, by decide⟩,
    hstep _ (.append ⟨1⟩ ⟨4⟩) ⟨1⟩ 2 hbefore (by decide) (by decide) (by decide) (by decide),
    by decide, hrun, hthroughout _ hrun⟩

end Forest

end MathTree

import MathTree.Proofs.Action.Counts
import MathTree.Proofs.Edit.Wrap

/-!
# Wrapping that fails

An action that puts what it is given into a fresh qualifier checks beforehand whether the qualifier
can be linked in, so that one that fails changes nothing.  There is one gap: the position of a new
bound variable is the number of those that the `lambda` counts, and when the variable is taken away
from that same `lambda` the number may be too large by one.  Of the cases in which that happens
(`Forest.Strands`) there are none as long as the counts are right (`not_strands_of_counted`).
-/

namespace MathTree

open Forest

variable {S : NodeId → Prop} {f g : Forest} {n p c v : NodeId} {action : Action} {k : Nat}

/-- Whether an action puts nodes that it is given into a fresh qualifier. -/
def Action.Wraps : Action → Prop
  | .addBound .. | .addCase .. | .setFallback .. => True
  | _ => False

namespace Forest

/-- Whether an action makes a bound variable of a child of a `lambda` that counts all its children as
bound variables, though this one is none. -/
def Strands (f : Forest) : Action → Prop
  | .addBound p v => v ≠ .placeholder ∧ v ∈ f.children p ∧ f.kind v ≠ .qualifier .bvar ∧
      (f.head p).boundCount = .ok (f.children p).length
  | _ => False

/-! ### No node counts more children than it has -/

/-- Whether a node counts at most as many bound variables as it has children. -/
def Bounded (f : Forest) (n : NodeId) : Prop :=
  ∀ k, (f.head n).payload = .lambda k → k ≤ (f.children n).length

/-- Whether a node counts as if its children, or fewer, were of some kinds. -/
def Covered (f : Forest) (n : NodeId) : Prop :=
  ∃ kinds : List Kind, kinds.length ≤ (f.children n).length ∧
    (f.head n).payload.recounted kinds = (f.head n).payload

end Forest

theorem Head.boundCount_eq_ok_iff {h : Head} : h.boundCount = .ok k ↔ h.payload = .lambda k := by
  unfold boundCount
  cases h.payload <;> simp

theorem Head.form_of_boundCount {h : Head} (hk : h.boundCount = .ok k) : h.form = .lambda := by
  rw [form, boundCount_eq_ok_iff.1 hk]
  rfl

theorem Payload.le_of_recounted {payload : Payload} {kinds : List Kind}
    (h : payload.recounted kinds = .lambda k) : k ≤ kinds.length := by
  cases payload <;> cases h
  exact List.count_le_length

theorem Payload.recounted_of_form {payload : Payload} (hl : payload.form ≠ .lambda)
    (hp : payload.form ≠ .piecewise) (kinds : List Kind) : payload.recounted kinds = payload := by
  cases payload <;> first | rfl | exact absurd rfl hl | exact absurd rfl hp

namespace Forest

theorem covered_of_recounted (kinds : List Kind) (hhead : g.head n = (f.head p).recounted kinds)
    (hlen : kinds.length ≤ (g.children n).length) : g.Covered n := by
  refine ⟨kinds, hlen, ?_⟩
  rw [hhead, Head.payload_recounted, Payload.recounted_recounted]

theorem Covered.of_same (h : f.Covered p) (hpayload : (g.head n).payload = (f.head p).payload)
    (hlen : (g.children n).length = (f.children p).length) : g.Covered n := by
  unfold Covered
  rwa [hlen, hpayload]

theorem Rehung.covered {m : NodeId} {l : List NodeId} {q : Option NodeId} (hr : f.Rehung g m l c q)
    (h : f.Covered n) : g.Covered n := by
  by_cases hn : n = m
  · refine covered_of_recounted (f := f) (p := m) (l.map f.kind) ?_ ?_
    · rw [hr.head, if_pos hn]
    · exact Nat.le_of_eq (by rw [hr.children, if_pos hn, List.length_map])
  · refine h.of_same ?_ ?_
    · rw [hr.head, if_neg hn]
    · rw [hr.children, if_neg hn]

theorem Step.covered (hs : f.Step S g) (h : ∀ n, f.Covered n) (n : NodeId) : g.Covered n := by
  cases hs with
  | @plant seed head hseed =>
    by_cases hn : n = f.next
    · refine ⟨[], Nat.zero_le _, ?_⟩
      rw [head_plant, if_pos hn, Seed.recounted_head hseed]
    · exact (h n).of_same (by rw [head_plant, if_neg hn]) (by rw [children_plant])
  | @graft m copies _ hcopies =>
    by_cases hn : n = f.next
    · refine (h m).of_same ?_ ?_
      · rw [head_graft, if_pos hn]
      · rw [children_graft, if_pos hn, hcopies.length_eq]
    · refine (h n).of_same ?_ ?_
      · rw [head_graft, if_neg hn]
      · rw [children_graft, if_neg hn]
  | link hp => exact (rehung_link hp _ _).covered (h n)
  | unlink _ hi => exact (rehung_unlink (has_of_getElem?_children hi) _ _).covered (h n)
  | @free m =>
    by_cases hn : n = m
    · refine covered_of_recounted (f := f) (p := m) [] ?_ (Nat.zero_le _)
      rw [head_discard, if_pos hn]
    · refine (h n).of_same ?_ ?_
      · rw [head_discard, if_neg hn]
      · rw [children_discard, if_neg hn]

theorem Effect.covered (he : f.Effect action g) (h : ∀ n, f.Covered n) (n : NodeId) :
    g.Covered n := by
  cases he with
  | moved hs =>
    induction hs generalizing n with
    | refl => exact h n
    | tail _ hs ih => exact hs.covered ih n
  | alike hg => exact (h n).of_same (by rw [hg.head]) (by rw [hg.children])
  | @rewritten _ _ m head hr _ hcounts =>
    by_cases hn : n = m
    · subst hn
      have hhead : g.head n = head := by rw [hr.head, if_pos rfl]
      rcases hcounts with hpayload | ⟨hl, hp⟩
      · exact (h n).of_same (by rw [hhead, hpayload]) (by rw [hr.children])
      · refine ⟨[], Nat.zero_le _, ?_⟩
        rw [hhead]
        exact Payload.recounted_of_form hl hp []
    · exact (h n).of_same (by rw [hr.head, if_neg hn]) (by rw [hr.children])
  | @rekinded _ m kind _ hr =>
    refine (h n).of_same ?_ (by rw [hr.children])
    rw [hr.head]
    split_ifs with hn
    · rw [hn]
    · rfl

theorem Reachable.covered (hf : f.Reachable) (n : NodeId) : f.Covered n := by
  induction hf generalizing n with
  | start =>
    obtain ⟨i⟩ := n
    cases i <;> exact ⟨[], Nat.zero_le _, rfl⟩
  | after hf ha ih => exact (effect hf.linked ha).covered ih n

theorem Reachable.bounded (hf : f.Reachable) (n : NodeId) : f.Bounded n := by
  intro k hk
  obtain ⟨kinds, hlen, hkinds⟩ := hf.covered n
  rw [hk] at hkinds
  exact Nat.le_trans (Payload.le_of_recounted hkinds) hlen

/-- A node without children counts none. -/
theorem Reachable.counted_of_children_nil (hf : f.Reachable) (hn : f.children n = []) :
    f.Counted n := by
  obtain ⟨kinds, hlen, hkinds⟩ := hf.covered n
  rw [hn, List.length_nil] at hlen
  rw [counted_iff, hn, List.map_nil]
  rwa [List.length_eq_zero_iff.1 (Nat.le_zero.1 hlen)] at hkinds

/-! ### Failures -/

/-- Where the counts are right, a `lambda` that counts all its children has no other children. -/
theorem not_strands_of_counted (h : ∀ n, f.Counted n) : ¬ f.Strands action := by
  intro hs
  cases action with
  | addBound p v =>
    obtain ⟨-, hv, hkind, hk⟩ := hs
    rw [(h p).1 (Head.form_of_boundCount hk)] at hk
    have hall := List.countP_eq_length.1 (Except.ok.inj hk) v hv
    exact hkind (by simpa using hall)
  | _ => exact hs

/-- The qualifier around a new bound variable finds its place, unless the variable is the last child
that the `lambda` counts. -/
theorem insertFault?_wrap (hf : f.Linked) (hp : f.Has p) (hv : f.Has v)
    (hk : (f.head p).boundCount = .ok k) (hle : k ≤ (f.children p).length)
    (hadopt : f.adoptFault? p v = none) :
    (f.wrap .bvar v).insertFault? p k f.next ≠ none ↔
      v ≠ .placeholder ∧ v ∈ f.children p ∧ k = (f.children p).length := by
  have hl := not_mem_lineage_of_adoptFault? hv hadopt
  rw [Ne, (wrapped_wrap hf hv .bvar).insertFault?_eq_none_iff hf hp
    (.inl (Head.form_of_boundCount hk)) hl, children_wrap hf hp]
  by_cases hvp : f.parent v = some p
  · have hmem := hf.mem_of_parent hvp
    have hpos := List.length_pos_of_mem hmem
    rw [if_pos hvp, List.length_erase_of_mem hmem]
    refine ⟨fun h => ⟨hf.ne_placeholder_of_parent hvp, hmem, by omega⟩, fun h => by omega⟩
  · rw [if_neg hvp]
    exact iff_of_false (not_not.2 hle) fun h => hvp ((hf.parent_iff h.1).2 h.2.1)

/-- Once it is wrapped, a node does not come back to its parent when the qualifier is given up. -/
theorem parent_giveUp_wrap (hf : f.Linked) (hp : f.Has p) (hv : f.Has v) (hne : v ≠ .placeholder) :
    ((Edit.giveUp f.next).run (f.wrap .bvar v)).2.parent v ≠ some p := by
  have hw := wrapped_wrap hf hv .bvar
  have hplant := wrapped_plant f .bvar
  have hparent : (f.wrap .bvar v).parent v = some f.next := by
    have hl := hplant.linked hf
    rw [wrap, (rehung_link (has_detach.2 hplant.has) 0 v).parent,
      if_pos ⟨rfl, hne, has_detach.2 (hplant.steps.has hv)⟩]
  have hnext : f.next ≠ p := (ne_next_of_has hp).symm
  rw [Edit.run_giveUp]
  dsimp only
  split_ifs
  · rw [hparent]
    simpa using hnext
  · rw [parent_discard hw.free, hparent]
    split_ifs
    · exact (Option.some_ne_none p).symm
    · simpa using hnext

theorem addBound_of_error (hf : f.Reachable) (hp : f.Has p) (hv : f.Has v) {fault : Fault}
    (hfail : ((Edit.addBound p v).run f).1 = .error fault) :
    (¬ f.Strands (.addBound p v) → ((Edit.addBound p v).run f).2 = f) ∧
      (f.Strands (.addBound p v) → ¬ f.Untouched ((Edit.addBound p v).run f).2) := by
  have hl := hf.linked
  rw [Edit.run_addBound hv] at hfail ⊢
  cases hk : (f.head p).boundCount with
  | error fault =>
    refine ⟨fun _ => rfl, fun h => ?_⟩
    have hcount := h.2.2.2
    rw [hk] at hcount
    cases hcount
  | ok k =>
    have hle := hf.bounded p k (Head.boundCount_eq_ok_iff.1 hk)
    simp only [hk] at hfail ⊢
    split_ifs at hfail ⊢ with hkind
    · -- a bound variable is moved as it is
      refine ⟨fun _ => ?_, fun h => absurd hkind h.2.2.1⟩
      rw [Edit.run_insertAt] at hfail ⊢
      cases hi : f.insertFault? p k v with
      | some fault => rfl
      | none =>
        rw [hi] at hfail
        cases hfail
    · cases ha : f.adoptFault? p v with
      | some fault =>
        refine ⟨fun _ => rfl, fun h => ?_⟩
        rw [hl.adoptFault?_of_parent ((hl.parent_iff h.1).2 h.2.1)] at ha
        cases ha
      | none =>
        have hiff := insertFault?_wrap hl hp hv hk hle ha
        cases hi : (f.wrap .bvar v).insertFault? p k f.next with
        | none =>
          rw [ha, hi] at hfail
          cases hfail
        | some fault =>
          obtain ⟨hne, hmem, hlen⟩ := hiff.1 (by rw [hi]; exact nofun)
          refine ⟨fun h => absurd ⟨hne, hmem, hkind, hlen ▸ hk⟩ h, fun _ hu => ?_⟩
          refine parent_giveUp_wrap hl hp hv hne ?_
          rw [parent, hu.get hv, ← parent, (hl.parent_iff hne).2 hmem]

theorem addCase_of_error (hf : f.Linked) (hp : f.Has p) (hv : f.Has v) (hc : f.Has c)
    {fault : Fault} (hfail : ((Edit.addCase p v c).run f).1 = .error fault) :
    ((Edit.addCase p v c).run f).2 = f := by
  cases hk : (f.head p).caseCount with
  | error fault => rw [Edit.run_addCase_eq, hk]
  | ok k =>
    cases hav : f.adoptFault? p v with
    | some fault => rw [Edit.run_addCase_eq, hk, hav]
    | none =>
      cases hac : f.adoptFault? p c with
      | some fault => rw [Edit.run_addCase_eq, hk, hav, hac]
      | none =>
        rw [Edit.run_addCase hf hp hv hc hk hav hac] at hfail
        cases hfail

theorem setFallback_of_error (hf : f.Linked) (hp : f.Has p) (hv : f.Has v) {fault : Fault}
    (hfail : ((Edit.setFallback p v).run f).1 = .error fault) :
    ((Edit.setFallback p v).run f).2 = f := by
  cases hk : (f.head p).caseCount with
  | error fault => rw [Edit.run_setFallback_eq, hk]
  | ok k =>
    cases hav : f.adoptFault? p v with
    | some fault => rw [Edit.run_setFallback_eq, hk, hav]
    | none =>
      rcases Edit.run_setFallback hf hp hv hk hav with ⟨-, hrun⟩ | ⟨i, old, -, -, hrun⟩ <;>
      · rw [hrun] at hfail
        cases hfail

theorem error_of_map {α : Type} {edit : Edit α} {k : α → Outcome} {fault : Fault}
    (hfail : ((k <$> edit).run f).1 = .error fault) : (edit.run f).1 = .error fault := by
  rw [Edit.run_map] at hfail
  cases hr : (edit.run f).1 with
  | error fault =>
    rw [hr] at hfail
    cases hfail
    rfl
  | ok a =>
    rw [hr] at hfail
    cases hfail

/-- An action that wraps what it is given and then fails has changed nothing, unless it has left a
child of a `lambda` without its place. -/
theorem wraps_of_error (hf : f.Reachable) (ha : f.Admits action) (hw : action.Wraps) {fault : Fault}
    (hfail : (action.perform.run f).1 = .error fault) :
    (¬ f.Strands action → f.after action = f) ∧
      (f.Strands action → ¬ f.Untouched (f.after action)) := by
  cases action with
  | addBound p v =>
    have h := addBound_of_error hf (ha p (by simp [Action.nodes])) (ha v (by simp [Action.nodes]))
      (error_of_map hfail)
    rwa [after_map rfl]
  | addCase p v c =>
    have h := addCase_of_error hf.linked (ha p (by simp [Action.nodes]))
      (ha v (by simp [Action.nodes])) (ha c (by simp [Action.nodes])) (error_of_map hfail)
    rw [after_map rfl]
    exact ⟨fun _ => h, False.elim⟩
  | setFallback p v =>
    have h := setFallback_of_error hf.linked (ha p (by simp [Action.nodes]))
      (ha v (by simp [Action.nodes])) (error_of_map hfail)
    rw [after_map rfl]
    exact ⟨fun _ => h, False.elim⟩
  | _ => exact hw.elim

theorem wraps_of_error_cycle :
    (start.run oneParameter).Reachable ∧ (start.run oneParameter).Admits (.addBound ⟨1⟩ ⟨1⟩) ∧
      ((Action.addBound ⟨1⟩ ⟨1⟩).perform.run (start.run oneParameter)).1 = .error .cycle ∧
      (start.run oneParameter).after (.addBound ⟨1⟩ ⟨1⟩) = start.run oneParameter := by
  have hf := Reachable.start.run admits_oneParameter
  have hadmits : (start.run oneParameter).Admits (.addBound ⟨1⟩ ⟨1⟩) := by decide
  have hfail : ((Action.addBound ⟨1⟩ ⟨1⟩).perform.run (start.run oneParameter)).1
      = .error .cycle := by decide
  refine ⟨hf, hadmits, hfail, (wraps_of_error hf hadmits trivial hfail).1 fun h => ?_⟩
  exact absurd h.2.1 (by decide)

/-- A child that is no bound variable any more, but is still counted as one, loses its place. -/
theorem strands_degree :
    let f := start.run (oneParameter ++ [.setKind ⟨3⟩ (.qualifier .degree)])
    start.Along Admits (oneParameter ++ [.setKind ⟨3⟩ (.qualifier .degree), .addBound ⟨1⟩ ⟨3⟩]) ∧
      ((Action.addBound ⟨1⟩ ⟨3⟩).perform.run f).1 = .error (.outOfRange 1 0) ∧
      f.children ⟨1⟩ = [⟨3⟩] ∧ (f.after (.addBound ⟨1⟩ ⟨3⟩)).children ⟨1⟩ = [] := by
  decide

end Forest

end MathTree

import MathTree.Proofs.Action.Links

/-!
# Refusals

An action that moves a node as it is, or writes a kind or a value, is checked before anything is
written, so that one that is refused changes nothing and nobody is told (`plain_of_error`).  Only an
exchange of children could fail later, when the new child has left its place and the old one is
looked up; but there the old child always stands (`unlinkAt?_slot`).
-/

namespace MathTree

open Forest

variable {α β : Type} {f : Forest} {n p c : NodeId} {i : Nat}

/-- Whether an action moves one node that it is given as it is, or writes a kind or a value. -/
def Action.Plain : Action → Prop
  | .append .. | .prepend .. | .insertAt .. | .replaceAt .. => True
  | .setLeft .. | .setRight .. | .setOperand .. | .setBody .. => True
  | .setKind .. | .assign .. => True
  | _ => False

namespace Edit

/-- Whether an edit that fails on a forest leaves it as it was. -/
def AllOrNothing (e : Edit α) (f : Forest) : Prop :=
  ∀ fault, (e.run f).1 = .error fault → (e.run f).2 = f

/-! ### Putting edits together -/

section rules

variable {e : Edit α} {k : α → Edit β}

theorem allOrNothing_of_run {r : Except Fault α} (h : e.run f = (r, f)) : e.AllOrNothing f := by
  intro fault _
  rw [h]

theorem allOrNothing_of_ok {a : α} {g : Forest} (h : e.run f = (.ok a, g)) : e.AllOrNothing f := by
  intro fault hfail
  rw [h] at hfail
  cases hfail

theorem AllOrNothing.map (h : e.AllOrNothing f) (k : α → β) : (k <$> e).AllOrNothing f := by
  intro fault hfail
  rw [run_map] at hfail ⊢
  cases he : (e.run f).1 with
  | error fault => exact h fault he
  | ok a =>
    rw [he] at hfail
    cases hfail

theorem AllOrNothing.discard (h : e.AllOrNothing f) : (discard e).AllOrNothing f := h.map _

theorem allOrNothing_get_bind {k : Forest → Edit β} (h : (k f).AllOrNothing f) :
    (get >>= k).AllOrNothing f := by
  intro fault hfail
  rw [run_bind] at hfail ⊢
  exact h fault hfail

/-- Looking something up changes nothing, whether it is found or not. -/
theorem allOrNothing_lift_bind {x : Except Fault α} (h : ∀ a, x = .ok a → (k a).AllOrNothing f) :
    (liftM x >>= k).AllOrNothing f := by
  intro fault hfail
  rw [run_bind, run_lift] at hfail ⊢
  cases x with
  | error fault => rfl
  | ok a => exact h a rfl fault hfail

end rules

/-! ### Moving nodes -/

theorem allOrNothing_insertAt : (insertAt p i c).AllOrNothing f := by
  have hrun := run_insertAt (f := f) (p := p) (i := i) (c := c)
  cases h : f.insertFault? p i c with
  | some fault =>
    rw [h] at hrun
    exact allOrNothing_of_run hrun
  | none =>
    rw [h] at hrun
    exact allOrNothing_of_ok hrun

theorem allOrNothing_append : (append p c).AllOrNothing f :=
  allOrNothing_get_bind allOrNothing_insertAt

end Edit

/-- The child that is to be replaced is found behind the one that was taken away. -/
theorem Forest.Linked.unlinkAt?_slot (h : f.Linked) (hi : i < f.childCount p)
    (hc : ¬ (c ≠ .placeholder ∧ f.positionOf p c = some i)) :
    ∃ old, f.childAt p i = .ok old ∧ (f.detach c).unlinkAt? p (f.slot p i c)
      = some (old, (f.detach c).unlink p (f.slot p i c) old) := by
  obtain ⟨old, hold, hat⟩ := childAt_of_lt hi
  refine ⟨old, hat, ?_⟩
  rw [Forest.unlinkAt?, h.getElem?_slot hc, hold]
  rfl

namespace Edit

section

variable (hf : f.Linked)
include hf

theorem allOrNothing_replaceAt : (replaceAt p i c).AllOrNothing f := by
  have hrun := run_replaceAt (p := p) (i := i) (c := c) hf
  cases ha : f.adoptFault? p c with
  | some fault =>
    rw [ha] at hrun
    exact allOrNothing_of_run hrun
  | none =>
    cases hat : f.childAt p i with
    | error fault =>
      rw [ha, hat] at hrun
      exact allOrNothing_of_run hrun
    | ok old =>
      rw [ha, hat] at hrun
      split_ifs at hrun
      · exact allOrNothing_of_ok hrun
      · exact allOrNothing_of_ok hrun

/-- An exchange of children is refused by the first checks, or not at all. -/
theorem replaceAt_eq_error_iff {fault : Fault} : ((replaceAt p i c).run f).1 = .error fault ↔
    f.adoptFault? p c = some fault ∨ f.adoptFault? p c = none ∧ f.childAt p i = .error fault := by
  rw [run_replaceAt hf]
  cases f.adoptFault? p c with
  | some fault => simp
  | none =>
    cases f.childAt p i with
    | error fault => simp
    | ok old =>
      simp only [reduceCtorEq, and_false, or_false, iff_false]
      split_ifs <;> simp

theorem allOrNothing_replaceOrAppend : (replaceOrAppend p i c).AllOrNothing f := by
  apply allOrNothing_get_bind
  split_ifs
  · exact (allOrNothing_replaceAt hf).discard
  · exact allOrNothing_append

theorem allOrNothing_setLeft : (setLeft p c).AllOrNothing f :=
  allOrNothing_get_bind (allOrNothing_lift_bind fun _ _ => allOrNothing_replaceOrAppend hf)

theorem allOrNothing_setRight : (setRight p c).AllOrNothing f := by
  refine allOrNothing_get_bind (allOrNothing_lift_bind fun _ _ => allOrNothing_get_bind ?_)
  dsimp only
  split_ifs
  · exact (allOrNothing_replaceAt hf).discard
  · exact allOrNothing_append

theorem allOrNothing_setOperand : (setOperand p c).AllOrNothing f :=
  allOrNothing_get_bind (allOrNothing_lift_bind fun _ _ => allOrNothing_replaceOrAppend hf)

theorem allOrNothing_setBody : (setBody p c).AllOrNothing f :=
  allOrNothing_get_bind (allOrNothing_lift_bind fun _ _ => allOrNothing_replaceOrAppend hf)

end

/-! ### Values -/

theorem allOrNothing_setKind {kind : Kind} : (setKind n kind).AllOrNothing f := by
  have hrun : (setKind n kind).run f = _ := run_setKind
  split_ifs at hrun
  · exact allOrNothing_of_ok hrun
  · exact allOrNothing_of_run hrun

theorem allOrNothing_assign {assignment : Assignment} : (assign n assignment).AllOrNothing f := by
  have hrun : (assign n assignment).run f = _ := run_assign
  split_ifs at hrun
  · exact allOrNothing_of_run hrun
  · cases hassign : (f.head n).assign? assignment with
    | none =>
      rw [hassign] at hrun
      exact allOrNothing_of_run hrun
    | some head =>
      rw [hassign] at hrun
      exact allOrNothing_of_ok hrun

end Edit

/-! ### Actions -/

theorem Action.Plain.allOrNothing {action : Action} (h : action.Plain) (hf : f.Linked) :
    action.perform.AllOrNothing f := by
  cases action with
  | append p c => exact Edit.allOrNothing_append.map _
  | prepend p c => exact Edit.allOrNothing_insertAt.map _
  | insertAt p i c => exact Edit.allOrNothing_insertAt.map _
  | replaceAt p i c => exact (Edit.allOrNothing_replaceAt hf).map _
  | setLeft p c => exact (Edit.allOrNothing_setLeft hf).map _
  | setRight p c => exact (Edit.allOrNothing_setRight hf).map _
  | setOperand p c => exact (Edit.allOrNothing_setOperand hf).map _
  | setBody p c => exact (Edit.allOrNothing_setBody hf).map _
  | setKind n kind => exact Edit.allOrNothing_setKind.map _
  | assign n assignment => exact Edit.allOrNothing_assign.map _
  | _ => exact h.elim

namespace Forest

/-- A plain action that fails has changed nothing, neither nodes nor what has been told.  An exchange
of children fails only by the checks that come first: once the new child has left its place, the one
that is to go is found. -/
theorem plain_of_error (hf : f.Reachable) :
    (∀ (action : Action) (fault : Fault), action.Plain →
      (action.perform.run f).1 = .error fault → f.after action = f) ∧
    (∀ (p : NodeId) (i : Nat) (c : NodeId) (fault : Fault),
      ((Edit.replaceAt p i c).run f).1 = .error fault ↔
        f.adoptFault? p c = some fault ∨
          f.adoptFault? p c = none ∧ f.childAt p i = .error fault) ∧
    ∀ (p : NodeId) (i : Nat) (c : NodeId), i < f.childCount p →
      ¬ (c ≠ .placeholder ∧ f.positionOf p c = some i) →
      ∃ old, f.childAt p i = .ok old ∧ (f.detach c).unlinkAt? p (f.slot p i c)
        = some (old, (f.detach c).unlink p (f.slot p i c) old) := by
  have hl := hf.linked
  refine ⟨?_, ?_, ?_⟩
  · intro action fault hplain hfail
    exact hplain.allOrNothing hl fault hfail
  · intro p i c fault
    exact Edit.replaceAt_eq_error_iff hl
  · intro p i c hi hc
    exact hl.unlinkAt?_slot hi hc

theorem plain_of_error_outOfRange :
    let f := start.run oneParameter
    f.Reachable ∧
      ((Action.replaceAt ⟨1⟩ 1 ⟨2⟩).perform.run f).1 = .error (.outOfRange 1 1) ∧
      f.after (.replaceAt ⟨1⟩ 1 ⟨2⟩) = f ∧ 0 < f.childCount ⟨1⟩ ∧ f.positionOf ⟨1⟩ ⟨2⟩ = none ∧
      ∃ old, f.childAt ⟨1⟩ 0 = .ok old ∧ (f.detach ⟨2⟩).unlinkAt? ⟨1⟩ (f.slot ⟨1⟩ 0 ⟨2⟩)
        = some (old, (f.detach ⟨2⟩).unlink ⟨1⟩ (f.slot ⟨1⟩ 0 ⟨2⟩) old) := by
  have hf := Reachable.start.run admits_oneParameter
  have hfail : ((Action.replaceAt ⟨1⟩ 1 ⟨2⟩).perform.run (start.run oneParameter)).1
      = .error (.outOfRange 1 1) := by decide
  have hi : 0 < (start.run oneParameter).childCount ⟨1⟩ := by decide
  have hc : (start.run oneParameter).positionOf ⟨1⟩ ⟨2⟩ = none := by decide
  have h := plain_of_error hf
  refine ⟨hf, hfail, h.1 _ _ trivial hfail, hi, hc, h.2.2 _ _ _ hi ?_⟩
  rw [hc]
  exact fun hin => nomatch hin.2

end Forest

end MathTree

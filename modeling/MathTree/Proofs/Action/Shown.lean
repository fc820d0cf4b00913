import MathTree.Proofs.Action.Links

/-!
# What nodes show and what they hide

A node shows the first of its children, as many as a strict node may hold, and hides the others
(`shown_append_hidden`).  What it says of its children by their positions is said of those that it
shows.  A position is not bound to a child: when a child that is shown is taken away, the others close
up, and the first that was hidden comes to be shown (`removal_reveals_next`).
-/

namespace MathTree

open Forest

variable {f g : Forest} {n p c : NodeId} {i k : Nat}

/-- With one child less, a node shows one less or as many. -/
theorem Head.shown_pred (h : Head) (k : Nat) : h.shown (k - 1) = min (h.shown k) (k - 1) := by
  unfold Head.shown
  split
  · split_ifs <;> omega
  · omega

@[simp]
theorem Head.shown_recounted (h : Head) (kinds : List Kind) : (h.recounted kinds).shown = h.shown := by
  funext k
  rw [shown, capacity_recounted, strict_recounted, shown]

namespace Forest

/-- The children that a node holds but does not show. -/
def hidden (f : Forest) (n : NodeId) : List NodeId := (f.children n).drop (f.childCount n)

theorem shown_append_hidden (f : Forest) (n : NodeId) : f.shown n ++ f.hidden n = f.children n :=
  List.take_append_drop _ _

@[simp]
theorem length_shown (f : Forest) (n : NodeId) : (f.shown n).length = f.childCount n := by
  rw [shown, List.length_take, Nat.min_eq_left (f.childCount_le n)]

theorem getElem?_shown (hi : i < f.childCount n) : (f.shown n)[i]? = (f.children n)[i]? :=
  List.getElem?_take_of_lt hi

theorem childAt_of_getElem? (hc : (f.children n)[i]? = some c) (hi : i < f.childCount n) :
    f.childAt n i = .ok c := by
  rw [childAt, getElem?_shown hi, hc]

theorem childAt_of_positionOf (hc : f.positionOf n c = some i) (hi : i < f.childCount n) :
    f.childAt n i = .ok c := by
  obtain ⟨hlt, hget, -⟩ := List.idxOf?_eq_some_iff.1 hc
  exact childAt_of_getElem? (List.getElem?_eq_some_iff.2 ⟨hlt, hget⟩) hi

/-- Only a strict node hides children, and it shows as many as it may hold then. -/
theorem strict_of_hidden_ne_nil (h : f.hidden n ≠ []) :
    (f.head n).strict ∧ (f.head n).capacity = some (f.childCount n) := by
  have hlt : f.childCount n < (f.children n).length := by
    by_contra hle
    exact h (List.drop_eq_nil_of_le (Nat.le_of_not_lt hle))
  rw [childCount, Head.shown] at *
  cases hk : (f.head n).capacity with
  | none => simp [hk] at hlt
  | some k =>
    simp only [hk] at hlt ⊢
    split_ifs at hlt ⊢ with hs
    · exact ⟨hs, congrArg some (by omega)⟩
    · exact absurd hlt (Nat.lt_irrefl _)

/-! ### Taking a child away -/

theorem run_removeAt_of_le (hi : f.childCount p ≤ i) :
    (Edit.removeAt p i).run f = (.ok none, f) := by
  simp only [Edit.removeAt, Edit.run_bind, Edit.run_get, Edit.run_pure, if_pos hi]

theorem run_removeAt_of_lt (hc : (f.children p)[i]? = some c) (hi : i < f.childCount p) :
    (Edit.removeAt p i).run f = (.ok (some c), f.unlink p i c) := by
  simp only [Edit.removeAt, Edit.run_bind, Edit.run_get, Edit.run_unlinkAt?, hc,
    if_neg (Nat.not_le_of_lt hi), Option.elim_some]

section

variable (hc : (f.children p)[i]? = some c)
include hc

theorem childCount_unlink :
    (f.unlink p i c).childCount p = min (f.childCount p) ((f.children p).length - 1) := by
  have hr := rehung_unlink (has_of_getElem?_children hc) i c
  have hlt := (List.getElem?_eq_some_iff.1 hc).1
  have hlen : ((f.unlink p i c).children p).length = (f.children p).length - 1 := by
    rw [hr.children, if_pos rfl, List.length_eraseIdx_of_lt hlt]
  rw [childCount, hlen, hr.head, if_pos rfl, Head.shown_recounted, Head.shown_pred, childCount]

/-- What was shown closes up, and behind it comes the first that was hidden. -/
theorem children_unlink_split (hi : i < f.childCount p) :
    (f.unlink p i c).children p
      = ((f.shown p).eraseIdx i ++ (f.hidden p).take 1) ++ (f.hidden p).drop 1 := by
  rw [(rehung_unlink (has_of_getElem?_children hc) i c).children, if_pos rfl, List.append_assoc,
    List.take_append_drop, ← f.shown_append_hidden p]
  exact List.eraseIdx_append_of_lt_length (by rwa [length_shown]) _

theorem childCount_unlink_eq_length (hi : i < f.childCount p) : (f.unlink p i c).childCount p
    = ((f.shown p).eraseIdx i ++ (f.hidden p).take 1).length := by
  have hlen := congrArg List.length (f.shown_append_hidden p)
  rw [List.length_append, length_shown] at hlen
  rw [childCount_unlink hc, List.length_append, List.length_take,
    List.length_eraseIdx_of_lt (by rwa [length_shown]), length_shown]
  omega

theorem shown_unlink (hi : i < f.childCount p) :
    (f.unlink p i c).shown p = (f.shown p).eraseIdx i ++ (f.hidden p).take 1 := by
  rw [shown, childCount_unlink_eq_length hc hi, children_unlink_split hc hi]
  exact List.take_left

theorem hidden_unlink (hi : i < f.childCount p) :
    (f.unlink p i c).hidden p = (f.hidden p).drop 1 := by
  rw [hidden, childCount_unlink_eq_length hc hi, children_unlink_split hc hi]
  exact List.drop_left

end

/-- A node names the child at any position that it gives for one and that is among those it shows.
The child at such a position can be taken away: the others that are shown stay in order, and the first
that is hidden, if any is, comes behind them, since only their number is limited.  No other position
lets a child be taken away. -/
theorem removal_reveals_next (f : Forest) (p : NodeId) :
    (∀ c i, f.positionOf p c = some i → i < f.childCount p → f.childAt p i = .ok c) ∧
    (∀ i < f.childCount p, ∃ c g, f.childAt p i = .ok c ∧
      (Edit.removeAt p i).run f = (.ok (some c), g) ∧
      g.shown p = (f.shown p).eraseIdx i ++ (f.hidden p).take 1 ∧
      g.hidden p = (f.hidden p).drop 1) ∧
    (∀ i, f.childCount p ≤ i → (Edit.removeAt p i).run f = (.ok none, f)) ∧
    (f.hidden p ≠ [] →
      (f.head p).strict ∧ (f.head p).capacity = some (f.childCount p)) := by
  refine ⟨fun c i hc hi => childAt_of_positionOf hc hi, fun i hi => ?_,
    fun i hi => run_removeAt_of_le hi, strict_of_hidden_ne_nil⟩
  obtain ⟨c, hc, hat⟩ := childAt_of_lt hi
  exact ⟨c, f.unlink p i c, hat, run_removeAt_of_lt hc hi, shown_unlink hc hi, hidden_unlink hc hi⟩

/-- Makes a difference, node one, of three names while it is lenient, and makes it strict then. -/
def overfullDifference : List Action :=
  [.plant (.ofKind .minus), .plant (.identifier "x"), .plant (.identifier "y"),
    .plant (.identifier "z"), .setStrict ⟨1⟩ false, .append ⟨1⟩ ⟨2⟩, .append ⟨1⟩ ⟨3⟩,
    .append ⟨1⟩ ⟨4⟩, .setStrict ⟨1⟩ true]

/-- What is hidden keeps its position and is shown once it is among the first two. -/
theorem positionOf_hidden_overfullDifference :
    let f := start.run overfullDifference
    let g := f.after (.removeAt ⟨1⟩ 0)
    f.Reachable ∧ f.positionOf ⟨1⟩ ⟨4⟩ = some 2 ∧ f.childAt ⟨1⟩ 2 = .error (.outOfRange 2 2) ∧
      0 < f.childCount ⟨1⟩ ∧ ((Edit.removeAt ⟨1⟩ 0).run f).1 = .ok (some ⟨2⟩) ∧
      f.shown ⟨1⟩ = [⟨2⟩, ⟨3⟩] ∧ g.shown ⟨1⟩ = [⟨3⟩, ⟨4⟩] ∧
      g.shown ⟨1⟩ ≠ (f.shown ⟨1⟩).eraseIdx 0 :=
  ⟨Reachable.start.run (by decide), by decide +kernel, by decide +kernel, by decide +kernel,
    by decide +kernel, by decide +kernel, by decide +kernel, by decide +kernel⟩

theorem removal_reveals_next_overfullDifference :
    let f := start.run overfullDifference
    f.positionOf ⟨1⟩ ⟨3⟩ = some 1 ∧ f.childAt ⟨1⟩ 1 = .ok ⟨3⟩ ∧ f.hidden ⟨1⟩ = [⟨4⟩] ∧
      ∃ g, (Edit.removeAt ⟨1⟩ 1).run f = (.ok (some ⟨3⟩), g) ∧ g.shown ⟨1⟩ = [⟨2⟩, ⟨4⟩] ∧
        g.hidden ⟨1⟩ = [] := by
  have hpos : (start.run overfullDifference).positionOf ⟨1⟩ ⟨3⟩ = some 1 := by decide +kernel
  have hi : 1 < (start.run overfullDifference).childCount ⟨1⟩ := by decide +kernel
  have hhidden : (start.run overfullDifference).hidden ⟨1⟩ = [⟨4⟩] := by decide +kernel
  have hshown : (start.run overfullDifference).shown ⟨1⟩ = [⟨2⟩, ⟨3⟩] := by decide +kernel
  obtain ⟨hat, hremove, -⟩ := removal_reveals_next (start.run overfullDifference) ⟨1⟩
  have hthird := hat _ _ hpos hi
  obtain ⟨c, g, hc, hrun, hg, hgone⟩ := hremove 1 hi
  obtain rfl : c = ⟨3⟩ := Except.ok.inj (hc.symm.trans hthird)
  rw [hhidden] at hg hgone
  rw [hshown] at hg
  exact ⟨hpos, hthird, hhidden, g, hrun, hg, hgone⟩

end Forest

end MathTree

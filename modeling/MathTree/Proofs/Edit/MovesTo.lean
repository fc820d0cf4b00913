import MathTree.Proofs.Edit.Moves

/-!
# Edits as moves

`Edit.MovesTo` says of an edit that it only makes moves within a region, whether it fails or not, and
of what it answers with that it is as stated.  The rules for putting edits together come first; then
each edit that moves nodes is shown to be made of moves, from the nodes that it is given to lie
within the region.
-/

namespace MathTree

open Forest

variable {α β : Type} {S : NodeId → Prop} {f g : Forest} {p c n : NodeId} {i : Nat}

/-- From this forest an edit makes moves within a region, and its answer is as stated. -/
def Edit.MovesTo (S : NodeId → Prop) (e : Edit α) (f : Forest) (P : α → Forest → Prop) : Prop :=
  f.Moves S (e.run f).2 ∧ ∀ a, (e.run f).1 = .ok a → P a (e.run f).2

/-- Whatever the answer is. -/
def anything (_ : α) (_ : Forest) : Prop := True

namespace Edit

/-! ### Putting edits together -/

section rules

variable {e : Edit α} {k : α → Edit β} {P P' : α → Forest → Prop}
  {Q : β → Forest → Prop}

theorem movesTo_of_run {r : Except Fault α} (h : e.run f = (r, g)) (hs : f.Moves S g)
    (hr : ∀ a, r = .ok a → P a g) : e.MovesTo S f P := by
  unfold MovesTo
  rw [h]
  exact ⟨hs, hr⟩

theorem MovesTo.mono (h : e.MovesTo S f P) (hP : ∀ a g, P a g → P' a g) :
    e.MovesTo S f P' :=
  ⟨h.1, fun a ha => hP a _ (h.2 a ha)⟩

theorem movesTo_pure {a : α} (h : P a f) : (pure a : Edit α).MovesTo S f P :=
  movesTo_of_run (run_pure a) .refl fun _ hb => Except.ok.inj hb ▸ h

theorem movesTo_throw (fault : Fault) : (throw fault : Edit α).MovesTo S f P :=
  movesTo_of_run (run_throw fault) .refl fun _ h => nomatch h

theorem MovesTo.bind (h : e.MovesTo S f P)
    (hk : ∀ a g, f.Moves S g → P a g → (k a).MovesTo S g Q) :
    (e >>= k).MovesTo S f Q := by
  unfold MovesTo
  rw [run_bind]
  cases ha : (e.run f).1 with
  | error fault => exact ⟨h.1, fun _ h => nomatch h⟩
  | ok a =>
    have hk := hk a _ h.1 (h.2 a ha)
    exact ⟨h.1.trans hk.1, hk.2⟩

theorem MovesTo.map {h : α → β} (he : e.MovesTo S f fun a g => Q (h a) g) :
    (h <$> e).MovesTo S f Q := by
  unfold MovesTo
  rw [run_map]
  refine ⟨he.1, fun b hb => ?_⟩
  cases ha : (e.run f).1 with
  | error fault =>
    rw [ha] at hb
    cases hb
  | ok a =>
    rw [ha] at hb
    exact Except.ok.inj hb ▸ he.2 a ha

theorem MovesTo.discard (he : e.MovesTo S f anything) : (discard e).MovesTo S f anything :=
  MovesTo.map (h := fun _ => ()) (he.mono fun _ _ _ => trivial)

theorem movesTo_get_bind {k : Forest → Edit β} (h : (k f).MovesTo S f Q) :
    (get >>= k).MovesTo S f Q := by
  unfold MovesTo
  rw [run_bind]
  exact h

theorem movesTo_lift_bind {x : Except Fault α} (h : ∀ a, x = .ok a → (k a).MovesTo S f Q) :
    (liftM x >>= k).MovesTo S f Q := by
  refine MovesTo.bind (P := fun a g => x = .ok a ∧ g = f) ?_ fun a g _ ha => ?_
  · exact movesTo_of_run (run_lift x) .refl fun a ha => ⟨ha, rfl⟩
  · obtain ⟨ha, rfl⟩ := ha
    exact h a ha

theorem movesTo_forM {l : List α} {k : α → Edit PUnit}
    (h : ∀ a ∈ l, ∀ g, f.Moves S g → (k a).MovesTo S g anything) :
    (l.forM k).MovesTo S f anything := by
  induction l generalizing f with
  | nil => exact movesTo_pure trivial
  | cons a l ih =>
    refine (h a List.mem_cons_self f .refl).bind fun _ g hg _ => ?_
    exact ih fun b hb g' hg' => h b (List.mem_cons_of_mem _ hb) g' (hg.trans hg')

/-- What the accumulator has to be is kept from one round to the next. -/
theorem movesTo_foldlM {l : List β} {k : α → β → Edit α} {a : α} (ha : P a f)
    (h : ∀ a, ∀ b ∈ l, ∀ g, f.Moves S g → P a g → (k a b).MovesTo S g P) :
    (l.foldlM k a).MovesTo S f P := by
  induction l generalizing f a with
  | nil => exact movesTo_pure ha
  | cons b l ih =>
    rw [List.foldlM_cons]
    refine (h a b List.mem_cons_self f .refl ha).bind fun a' g hg ha' => ?_
    exact ih ha' fun a b hb g' hg' => h a b (List.mem_cons_of_mem _ hb) g' (hg.trans hg')

theorem movesTo_mapM {l : List β} {k : β → Edit α}
    (h : ∀ b ∈ l, ∀ g, f.Moves S g → (k b).MovesTo S g anything) :
    (l.mapM k).MovesTo S f anything := by
  induction l generalizing f with
  | nil =>
    rw [List.mapM_nil]
    exact movesTo_pure trivial
  | cons b l ih =>
    rw [List.mapM_cons]
    refine (h b List.mem_cons_self f .refl).bind fun a g hg _ => ?_
    refine MovesTo.bind (ih fun b hb g' hg' => h b (List.mem_cons_of_mem _ hb) g' (hg.trans hg'))
      fun _ _ _ _ => movesTo_pure trivial

end rules

/-! ### Moving nodes -/

theorem movesTo_insertAt (hp : f.Within S p) (hc : f.Within S c) :
    (insertAt p i c).MovesTo S f anything := by
  have hrun := run_insertAt (f := f) (p := p) (i := i) (c := c)
  cases h : f.insertFault? p i c with
  | some fault =>
    rw [h] at hrun
    exact movesTo_of_run hrun .refl fun _ _ => trivial
  | none =>
    rw [h] at hrun
    exact movesTo_of_run hrun (.single (.insert hp hc h)) fun _ _ => trivial

theorem movesTo_append (hp : f.Within S p) (hc : f.Within S c) :
    (append p c).MovesTo S f anything :=
  movesTo_get_bind (movesTo_insertAt hp hc)

theorem movesTo_removeAt (hp : f.Within S p) : (removeAt p i).MovesTo S f anything := by
  refine movesTo_get_bind ?_
  split_ifs
  · exact movesTo_pure trivial
  · refine movesTo_of_run run_unlinkAt? ?_ fun _ _ => trivial
    cases hc : (f.children p)[i]? with
    | none => exact .refl
    | some c => exact .single (.remove hp.2 hc)

section

variable (hf : f.Ready S)
include hf

theorem movesTo_replaceAt (hp : f.Within S p) (hc : f.Within S c) :
    (replaceAt p i c).MovesTo S f anything := by
  refine ⟨?_, fun _ _ => trivial⟩
  rcases run_replaceAt_cases hf.linked p i c with hsame | ⟨old, hadopt, hat, hcur, hrun⟩
  · rw [hsame]
    exact .refl
  · rw [hrun]
    have hslot := (hf.linked.getElem?_slot hcur).trans (getElem?_of_childAt hat)
    exact .single (.replace hp hc hadopt hslot)

theorem movesTo_detach (hn : f.Within S n) : (Edit.detach n).MovesTo S f anything :=
  movesTo_of_run (run_modify _) (hf.moves_detach hn.2) fun _ _ => trivial

theorem movesTo_replaceOrAppend (hp : f.Within S p) (hc : f.Within S c) :
    (replaceOrAppend p i c).MovesTo S f anything := by
  refine movesTo_get_bind ?_
  split_ifs
  · exact (movesTo_replaceAt hf hp hc).discard
  · exact movesTo_append hp hc

/-! ### Children by the part they play -/

theorem movesTo_setLeft (hp : f.Within S p) (hc : f.Within S c) :
    (setLeft p c).MovesTo S f anything :=
  movesTo_get_bind (movesTo_lift_bind fun _ _ => movesTo_replaceOrAppend hf hp hc)

theorem movesTo_setRight (hp : f.Within S p) (hc : f.Within S c) :
    (setRight p c).MovesTo S f anything := by
  refine movesTo_get_bind (movesTo_lift_bind fun _ _ => movesTo_get_bind ?_)
  dsimp only
  split_ifs
  · exact (movesTo_replaceAt hf hp hc).discard
  · exact movesTo_append hp hc

theorem movesTo_setOperand (hp : f.Within S p) (hc : f.Within S c) :
    (setOperand p c).MovesTo S f anything :=
  movesTo_get_bind (movesTo_lift_bind fun _ _ => movesTo_replaceOrAppend hf hp hc)

theorem movesTo_setBody (hp : f.Within S p) (hc : f.Within S c) :
    (setBody p c).MovesTo S f anything :=
  movesTo_get_bind (movesTo_lift_bind fun _ _ => movesTo_replaceOrAppend hf hp hc)

/-! ### Making nodes -/

theorem movesTo_plant (seed : Seed) : (plant seed).MovesTo S f fun n g => g.Within S n := by
  refine movesTo_lift_bind fun head hhead => ?_
  refine movesTo_of_run (run_modifyGet _) (.single (.plant hhead)) fun n hn => ?_
  cases hn
  exact ⟨has_plant.2 (.inr rfl), hf.region.fresh f.not_has_next⟩

theorem movesTo_qualify (kind : Kind) (hc : f.Within S c) :
    (qualify kind c).MovesTo S f fun n g => g.Within S n := by
  refine (movesTo_plant hf _).bind fun n g hg hn => ?_
  refine (movesTo_append hn (hc.moves hg)).bind fun _ g' hg' _ => ?_
  exact movesTo_pure (hn.moves hg')

theorem movesTo_piece {v : NodeId} (hv : f.Within S v) (hc : f.Within S c) :
    (piece v c).MovesTo S f fun n g => g.Within S n := by
  refine (movesTo_qualify hf _ hv).bind fun n g hg hn => ?_
  refine (movesTo_append hn (hc.moves hg)).bind fun _ g' hg' _ => ?_
  exact movesTo_pure (hn.moves hg')

end

theorem movesTo_checkAdopt_bind {k : Unit → Edit α} {P : α → Forest → Prop}
    (h : f.adoptFault? p c = none → (k ()).MovesTo S f P) :
    (checkAdopt p c >>= k).MovesTo S f P := by
  unfold MovesTo
  rw [run_bind, run_checkAdopt]
  cases ha : f.adoptFault? p c with
  | some fault => exact ⟨.refl, fun _ h => nomatch h⟩
  | none => exact h ha

theorem movesTo_lift_discard_bind {x : Except Fault α} {k : Unit → Edit β}
    {P : β → Forest → Prop} (h : (k ()).MovesTo S f P) :
    (discard (liftM x : Edit α) >>= k).MovesTo S f P := by
  refine MovesTo.bind (P := fun _ g => g = f) ?_ fun _ g _ hg => hg ▸ h
  exact movesTo_of_run (run_discard _) .refl fun _ _ => rfl

section

variable (hf : f.Ready S)
include hf

theorem movesTo_addCase {v : NodeId} (hp : f.Within S p) (hv : f.Within S v)
    (hc : f.Within S c) : (addCase p v c).MovesTo S f anything := by
  refine movesTo_get_bind (movesTo_lift_discard_bind ?_)
  refine movesTo_checkAdopt_bind fun _ => movesTo_checkAdopt_bind fun _ => ?_
  refine (movesTo_piece hf hv hc).bind fun n g hg hn => movesTo_get_bind ?_
  cases g.fallbackPosition p with
  | some i => exact movesTo_insertAt (hp.moves hg) hn
  | none => exact movesTo_append (hp.moves hg) hn

theorem movesTo_setFallback {v : NodeId} (hp : f.Within S p) (hv : f.Within S v) :
    (setFallback p v).MovesTo S f anything := by
  refine movesTo_get_bind (movesTo_lift_discard_bind ?_)
  refine movesTo_checkAdopt_bind fun _ => ?_
  refine (movesTo_qualify hf _ hv).bind fun n g hg hn => movesTo_get_bind ?_
  cases g.fallbackPosition p with
  | some i => exact (movesTo_replaceAt (hf.moves hg) (hp.moves hg) hn).discard
  | none => exact movesTo_append (hp.moves hg) hn

end

end Edit

end MathTree

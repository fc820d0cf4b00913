import MathTree.Proofs.Action.Placement
import MathTree.Proofs.Action.Shown

/-!
# The order of children

What is put below a node, moved or taken away leaves the other children in order, and the placeholder,
which can be among them many times, in all its places.  `Forest.InOrder` says so of the nodes of an
earlier forest, and since it can be put together (`InOrder.trans`), it is shown of one elementary
change at a time and then of the edits that are made of these.
-/

namespace MathTree

open Forest

variable {S : NodeId → Prop} {e f f' g : Forest} {n p c d old v : NodeId} {i : Nat}
  {moved : List NodeId} {q : Qualifier}

namespace Forest

/-- Of the nodes of an earlier forest no child is more often below one of them than it was, unless it
is moved.  The placeholder, wherever it was among their children, and all children that are not moved
and not gone are still there, in the same order. -/
structure InOrder (e : Forest) (moved : List NodeId) (f g : Forest) : Prop where
  count_le : ∀ {p c : NodeId}, e.Has p → e.Has c → c ∉ moved →
    (g.children p).count c ≤ (f.children p).count c
  sublist : ∀ {p : NodeId}, e.Has p →
    ((f.children p).filter fun c =>
      c = .placeholder ∨ e.Has c ∧ c ∉ moved ∧ c ∈ g.children p).Sublist (g.children p)

theorem inOrder_of_children (h : ∀ p, e.Has p → g.children p = f.children p) :
    e.InOrder moved f g where
  count_le hp _ _ := Nat.le_of_eq (by rw [h _ hp])
  sublist hp := by
    rw [h _ hp]
    exact List.filter_sublist

theorem InOrder.refl (e : Forest) (moved : List NodeId) (f : Forest) : e.InOrder moved f f :=
  inOrder_of_children fun _ _ => rfl

/-- What is there in the end was there in between. -/
theorem InOrder.trans (h : e.InOrder moved f f') (h' : e.InOrder moved f' g) :
    e.InOrder moved f g where
  count_le hp hc hm := Nat.le_trans (h'.count_le hp hc hm) (h.count_le hp hc hm)
  sublist {p} hp := by
    have hstay := ((h.sublist hp).filter _).trans (h'.sublist hp)
    rw [List.filter_filter] at hstay
    convert hstay using 1
    refine List.filter_congr fun c _ => ?_
    rw [← Bool.decide_and, decide_eq_decide, iff_self_and]
    refine Or.imp_right fun ⟨hc, hm, hmem⟩ => ⟨hc, hm, ?_⟩
    have hle := h'.count_le hp hc hm
    exact List.count_pos_iff.1 (Nat.lt_of_lt_of_le (List.count_pos_iff.2 hmem) hle)

/-! ### Elementary changes -/

theorem filter_eraseIdx {α : Type} {l : List α} {a : α} {P : α → Bool} (hi : l[i]? = some a)
    (ha : P a = false) : (l.eraseIdx i).filter P = l.filter P := by
  obtain ⟨hlt, rfl⟩ := List.getElem?_eq_some_iff.1 hi
  have hsplit : l.take i ++ l[i] :: l.drop (i + 1) = l := by
    rw [← List.drop_eq_getElem_cons hlt, List.take_append_drop]
  calc (l.eraseIdx i).filter P
      = (l.take i ++ l[i] :: l.drop (i + 1)).filter P := by
        rw [List.eraseIdx_eq_take_drop_succ, List.filter_append, List.filter_append,
          List.filter_cons_of_neg (by simp [ha])]
    _ = l.filter P := by rw [hsplit]

theorem inOrder_link (hp : f.Has p) (hc : c ∈ moved ∨ ¬ e.Has c) (hi : i ≤ (f.children p).length) :
    e.InOrder moved f (f.link p i c) where
  count_le {q d} _ hd hm := by
    rw [(rehung_link hp i c).children]
    split_ifs with hq
    · have hne : c ≠ d := by
        rintro rfl
        exact hc.elim hm fun h => h hd
      exact Nat.le_of_eq (by rw [count_insertIdx _ hi, if_neg hne, hq, Nat.add_zero])
    · exact Nat.le_refl _
  sublist {q} _ := by
    refine List.filter_sublist.trans ?_
    rw [(rehung_link hp i c).children]
    split_ifs with hq
    · rw [hq]
      exact List.sublist_insertIdx _ _ _
    · exact List.Sublist.refl _

/-- A child that is let go was there only once, so that it is gone. -/
theorem Linked.inOrder_unlink (hf : f.Linked) (hi : (f.children p)[i]? = some c)
    (hne : c ≠ .placeholder) : e.InOrder moved f (f.unlink p i c) := by
  have hchildren (q : NodeId) : (f.unlink p i c).children q
      = if q = p then (f.children p).eraseIdx i else f.children q :=
    (rehung_unlink (has_of_getElem?_children hi) i c).children q
  refine ⟨fun {q d} _ _ _ => ?_, fun {q} _ => ?_⟩
  · rw [hchildren]
    split_ifs with hq
    · rw [hq]
      exact (List.eraseIdx_sublist _ _).count_le d
    · exact Nat.le_refl _
  · rw [hchildren]
    split_ifs with hq
    · have hgone := not_mem_eraseIdx (hf.once p hne) hi
      rw [hq, ← filter_eraseIdx hi (by simp [hne, hgone])]
      exact List.filter_sublist
    · exact List.filter_sublist

theorem Linked.inOrder_exchange (hf : f.Linked) (hi : (f.children p)[i]? = some old)
    (hc : c ∈ moved ∨ ¬ e.Has c) (hne : old ≠ .placeholder) :
    e.InOrder moved f ((f.unlink p i old).link p i c) := by
  have hp := has_of_getElem?_children hi
  refine (hf.inOrder_unlink hi hne).trans (inOrder_link (has_unlink.2 hp) hc ?_)
  have hlt := (List.getElem?_eq_some_iff.1 hi).1
  rw [(rehung_unlink hp i old).children, if_pos rfl, List.length_eraseIdx_of_lt hlt]
  exact Nat.le_sub_one_of_lt hlt

theorem Linked.inOrder_detach (hf : f.Linked) (c : NodeId) : e.InOrder moved f (f.detach c) := by
  cases hp : f.parent c with
  | none =>
    rw [detach_of_parent_none hp]
    exact .refl _ _ f
  | some p =>
    obtain ⟨i, hi, -, hd⟩ := hf.detach_of_parent hp
    rw [hd]
    exact hf.inOrder_unlink hi (hf.ne_placeholder_of_parent hp)

/-! ### Moving nodes -/

section

variable (hf : f.Linked) (hp : f.Has p)
include hf hp

theorem Linked.inOrder_insertAt (hc : c ∈ moved ∨ ¬ e.Has c) :
    e.InOrder moved f ((Edit.insertAt p i c).run f).2 := by
  rw [Edit.run_insertAt]
  cases hi : f.insertFault? p i c with
  | some fault => exact .refl _ _ f
  | none =>
    refine (hf.inOrder_detach c).trans (inOrder_link (has_detach.2 hp) hc ?_)
    rw [hf.length_children_detach]
    exact (insertFault?_eq_none_iff.1 hi).2.2

theorem Linked.inOrder_append (hc : c ∈ moved ∨ ¬ e.Has c) :
    e.InOrder moved f ((Edit.append p c).run f).2 := by
  rw [Edit.run_append]
  exact hf.inOrder_insertAt hp hc

omit hp in
theorem Linked.inOrder_replaceAt (hc : c ∈ moved ∨ ¬ e.Has c)
    (hold : f.childAt p i ≠ .ok .placeholder) :
    e.InOrder moved f ((Edit.replaceAt p i c).run f).2 := by
  rcases Edit.run_replaceAt_cases hf p i c with hsame | ⟨old, -, hat, hcur, hrun⟩
  · rw [hsame]
    exact .refl _ _ f
  · rw [hrun]
    have hslot := (hf.getElem?_slot hcur).trans (getElem?_of_childAt hat)
    refine (hf.inOrder_detach c).trans ((hf.detach c).inOrder_exchange hslot hc ?_)
    rintro rfl
    exact hold hat

theorem Linked.inOrder_replaceOrAppend (hc : c ∈ moved ∨ ¬ e.Has c)
    (hold : f.childAt p i ≠ .ok .placeholder) :
    e.InOrder moved f ((Edit.replaceOrAppend p i c).run f).2 := by
  simp only [Edit.replaceOrAppend, Edit.run_bind, Edit.run_get, Edit.run_ite, Edit.run_discard]
  split_ifs
  · exact hf.inOrder_replaceAt hc hold
  · exact hf.inOrder_append hp hc

/-! ### Children by the part they play -/

omit hf hp in
theorem inOrder_get_bind {β : Type} {k : Forest → Edit β}
    (h : e.InOrder moved f ((k f).run f).2) :
    e.InOrder moved f ((MonadState.get >>= k : Edit β).run f).2 := by
  rwa [Edit.run_bind, Edit.run_get]

omit hf hp in
/-- What is refused leaves all as it is. -/
theorem inOrder_lift_bind {α β : Type} {x : Except Fault α} {k : α → Edit β}
    (h : ∀ a, x = .ok a → e.InOrder moved f ((k a).run f).2) :
    e.InOrder moved f ((liftM x >>= k : Edit β).run f).2 := by
  rw [Edit.run_bind, Edit.run_lift]
  cases hx : x with
  | error fault => exact .refl _ _ f
  | ok a => exact h a hx

theorem Linked.inOrder_setLeft (hc : c ∈ moved ∨ ¬ e.Has c)
    (hold : f.childAt p 0 ≠ .ok .placeholder) :
    e.InOrder moved f ((Edit.setLeft p c).run f).2 :=
  inOrder_get_bind (inOrder_lift_bind fun _ _ => hf.inOrder_replaceOrAppend hp hc hold)

theorem Linked.inOrder_setRight (hc : c ∈ moved ∨ ¬ e.Has c)
    (hold : 2 ≤ f.childCount p → f.childAt p (f.childCount p - 1) ≠ .ok .placeholder) :
    e.InOrder moved f ((Edit.setRight p c).run f).2 := by
  refine inOrder_get_bind (inOrder_lift_bind fun _ _ => inOrder_get_bind ?_)
  simp only [Edit.run_ite, Edit.run_discard]
  split_ifs with hcount
  · exact hf.inOrder_replaceAt hc (hold hcount)
  · exact hf.inOrder_append hp hc

theorem Linked.inOrder_setOperand (hc : c ∈ moved ∨ ¬ e.Has c)
    (hold : f.childAt p 0 ≠ .ok .placeholder) :
    e.InOrder moved f ((Edit.setOperand p c).run f).2 :=
  inOrder_get_bind (inOrder_lift_bind fun _ _ => hf.inOrder_replaceOrAppend hp hc hold)

theorem Linked.inOrder_setBody (hc : c ∈ moved ∨ ¬ e.Has c)
    (hold : ∀ k, (f.head p).boundCount = .ok k → f.childAt p k ≠ .ok .placeholder) :
    e.InOrder moved f ((Edit.setBody p c).run f).2 :=
  inOrder_get_bind (inOrder_lift_bind fun k hk => hf.inOrder_replaceOrAppend hp hc (hold k hk))

end

theorem Linked.inOrder_removeAt (hf : f.Linked) (hold : f.childAt p i ≠ .ok .placeholder) :
    e.InOrder moved f ((Edit.removeAt p i).run f).2 := by
  by_cases hi : f.childCount p ≤ i
  · rw [run_removeAt_of_le hi]
    exact .refl _ _ f
  · obtain ⟨old, hget, hat⟩ := childAt_of_lt (Nat.lt_of_not_le hi)
    rw [run_removeAt_of_lt hget (Nat.lt_of_not_le hi)]
    refine hf.inOrder_unlink hget ?_
    rintro rfl
    exact hold hat

/-! ### Wrapping nodes -/

section

variable (hf : f.Linked)
include hf

theorem Linked.inOrder_wrap (q : Qualifier) (v : NodeId) : f.InOrder moved f (f.wrap q v) :=
  (hf.inOrder_detach v).trans (inOrder_of_children fun p hp => by
    rw [children_wrap hf hp, hf.children_detach])

theorem Linked.inOrder_wrapPair (hv : f.Has v) (c : NodeId) :
    f.InOrder moved f (f.wrapPair v c) := by
  have hw := wrapped_wrap hf hv .piece
  refine (hf.inOrder_wrap .piece v).trans (((hw.linked hf).inOrder_detach c).trans
    (inOrder_of_children fun p hp => ?_))
  rw [wrapPair, (rehung_link (has_detach.2 hw.has) _ c).children, if_neg (ne_next_of_has hp)]

theorem Linked.inOrder_qualify (kind : Kind) (hc : f.Has c) :
    f.InOrder moved f ((Edit.qualify kind c).run f).2 := by
  cases kind with
  | qualifier q =>
    rw [Edit.run_qualify hc]
    exact hf.inOrder_wrap q c
  | _ => exact .refl _ _ f

theorem Linked.inOrder_piece (hv : f.Has v) (hc : f.Has c) :
    f.InOrder moved f ((Edit.piece v c).run f).2 := by
  rw [Edit.run_piece hf hv hc]
  exact hf.inOrder_wrapPair hv c

theorem Linked.inOrder_addBound (hp : f.Has p) (hv : f.Has v) (hm : v ∈ moved) :
    f.InOrder moved f ((Edit.addBound p v).run f).2 := by
  rw [Edit.run_addBound hv]
  cases (f.head p).boundCount with
  | error fault => exact .refl _ _ f
  | ok k =>
    dsimp only
    split_ifs
    · exact hf.inOrder_insertAt hp (.inl hm)
    cases f.adoptFault? p v with
    | some fault => exact .refl _ _ f
    | none =>
      have hw := wrapped_wrap hf hv .bvar
      have hwrap : f.InOrder moved f (f.wrap .bvar v) := hf.inOrder_wrap .bvar v
      have hinsert : f.InOrder moved (f.wrap .bvar v)
          ((Edit.insertAt p k f.next).run (f.wrap .bvar v)).2 :=
        (hw.linked hf).inOrder_insertAt (hw.steps.has hp) (.inr f.not_has_next)
      rw [Edit.run_insertAt] at hinsert
      cases hi : (f.wrap .bvar v).insertFault? p k f.next with
      | none =>
        rw [hi] at hinsert
        exact hwrap.trans hinsert
      | some fault =>
        -- the qualifier stays or goes, and it is new
        refine hwrap.trans (inOrder_of_children fun n hn => ?_)
        dsimp only
        rw [Edit.run_giveUp]
        split_ifs
        · rfl
        · rw [children_discard, if_neg (ne_next_of_has hn)]

theorem Linked.inOrder_addCase (hp : f.Has p) (hv : f.Has v) (hc : f.Has c) :
    f.InOrder moved f ((Edit.addCase p v c).run f).2 := by
  cases hk : (f.head p).caseCount with
  | error fault =>
    rw [Edit.run_addCase_eq, hk]
    exact .refl _ _ f
  | ok k =>
    cases hav : f.adoptFault? p v with
    | some fault =>
      rw [Edit.run_addCase_eq, hk, hav]
      exact .refl _ _ f
    | none =>
      cases hac : f.adoptFault? p c with
      | some fault =>
        rw [Edit.run_addCase_eq, hk, hav, hac]
        exact .refl _ _ f
      | none =>
        rw [Edit.run_addCase hf hp hv hc hk hav hac]
        have hw := wrapped_wrapPair hf hv hc
        refine (hf.inOrder_wrapPair hv c).trans
          (inOrder_link (hw.steps.has hp) (.inr f.not_has_next) ?_)
        cases hi : (f.wrapPair v c).fallbackPosition p with
        | none => exact Nat.le_refl _
        | some i => exact Nat.le_of_lt (List.findIdx?_eq_some_iff_getElem.1 hi).1

omit hf in
theorem kind_of_fallbackPosition (hi : f.fallbackPosition p = some i)
    (hc : (f.children p)[i]? = some c) : f.kind c = .qualifier .otherwise := by
  obtain ⟨hlt, hkind, -⟩ := List.findIdx?_eq_some_iff_getElem.1 hi
  rw [List.getElem?_eq_getElem hlt, Option.some_inj] at hc
  rw [← hc]
  exact of_decide_eq_true hkind

theorem Linked.inOrder_setFallback (hp : f.Has p) (hv : f.Has v) :
    f.InOrder moved f ((Edit.setFallback p v).run f).2 := by
  cases hk : (f.head p).caseCount with
  | error fault =>
    rw [Edit.run_setFallback_eq, hk]
    exact .refl _ _ f
  | ok k =>
    cases hav : f.adoptFault? p v with
    | some fault =>
      rw [Edit.run_setFallback_eq, hk, hav]
      exact .refl _ _ f
    | none =>
      have hw := wrapped_wrap hf hv .otherwise
      have hg := hw.linked hf
      refine (hf.inOrder_wrap .otherwise v).trans ?_
      rcases Edit.run_setFallback hf hp hv hk hav with ⟨-, hrun⟩ | ⟨i, old, hi, hold, hrun⟩
      · rw [hrun]
        exact inOrder_link (hw.steps.has hp) (.inr f.not_has_next) (Nat.le_refl _)
      · rw [hrun]
        refine hg.inOrder_exchange hold (.inr f.not_has_next) ?_
        rintro rfl
        have hkind := kind_of_fallbackPosition hi hold
        rw [kind, hg.head_placeholder] at hkind
        cases hkind

end

/-! ### Substituting -/

/-- What has no parent takes the place of a child, or all is left as it is. -/
theorem Linked.children_replaceAt (hf : f.Linked) (hp : f.Has p) (hc : f.Has c)
    (hfree : f.parent c = none) :
    ((Edit.replaceAt p i c).run f).2 = f ∨
      ∀ q, ((Edit.replaceAt p i c).run f).2.children q
        = if q = p then (f.children p).set i c else f.children q := by
  have hfree' (q : NodeId) : f.parent c ≠ some q := by simp [hfree]
  rcases Edit.run_replaceAt_cases hf p i c with hsame | ⟨old, -, hat, hcur, hrun⟩
  · exact .inl hsame
  · refine .inr fun q => ?_
    have hout : ¬ (c ≠ .placeholder ∧ c ∈ f.children p) := fun hm =>
      hfree' p ((hf.parent_iff hm.1).2 hm.2)
    rw [hrun, (hf.placed_replace hp hc (getElem?_of_childAt hat) hcur).children,
      if_neg (hfree' q), exchanged, if_neg hout]

/-- What is left of an earlier forest while copies of a node are put into it.  Only if they are the
placeholder does it come to stand where another node stood. -/
structure Substituted (e : Forest) (n : NodeId) (f : Forest) : Prop where
  steps : e.Steps (fun _ => True) f
  inOrder : e.InOrder (if n = .placeholder then [n] else []) e f
  clear : ∀ {p c : NodeId} {i : Nat}, e.Has p → (e.children p)[i]? = some c → c ≠ .placeholder →
    (f.children p)[i]? = some .placeholder → n = .placeholder

theorem Substituted.refl (e : Forest) (n : NodeId) : e.Substituted n e where
  steps := .refl
  inOrder := .refl _ _ e
  clear _ hc hne hph := absurd (Option.some.inj (hc.symm.trans hph)) hne

theorem Substituted.copied (h : e.Substituted n f) (he : e.Linked)
    (hc : f.CopiedTo (fun _ => True) g n c) : e.Substituted n g := by
  have hchildren (p : NodeId) (hp : e.Has p) : g.children p = f.children p := by
    rw [children, hc.untouched.get (h.steps.has hp), children]
  refine ⟨h.steps.trans (hc.moves.steps (he.steps h.steps).ready),
    h.inOrder.trans (inOrder_of_children hchildren), fun hp hi hne hph => ?_⟩
  rw [hchildren _ hp] at hph
  exact h.clear hp hi hne hph

theorem Substituted.replaceAt (h : e.Substituted n f) (he : e.Linked) (hp : e.Has p)
    (hold : (e.children p)[i]? = some old) (hne : old ≠ .placeholder) (hc : f.Mirrors c n)
    (hhas : f.Has c) (hfresh : c ≠ .placeholder → ¬ e.Has c) :
    e.Substituted n ((Edit.replaceAt p i c).run f).2 := by
  have hf := he.steps h.steps
  have hfp := h.steps.has hp
  have hsteps := (Edit.movesTo_replaceAt (i := i) hf.ready ⟨hfp, trivial⟩ ⟨hhas, trivial⟩).1
  have hmoved : c ∈ (if n = .placeholder then [n] else []) ∨ ¬ e.Has c := by
    by_cases hn : n = .placeholder
    · exact .inl (by simp [hn, hc.eq_placeholder_iff.2 hn])
    · exact .inr (hfresh fun hc' => hn (hc.eq_placeholder_iff.1 hc'))
  rcases hf.children_replaceAt (i := i) hfp hhas (hc.parent_eq_none hf) with hsame | hchildren
  · rwa [hsame]
  · refine ⟨h.steps.trans (hsteps.steps hf.ready), h.inOrder.trans ?_, ?_⟩
    · by_cases hat : f.childAt p i = .ok .placeholder
      · -- the placeholder takes its own place
        have hget := getElem?_of_childAt hat
        have hcph := hc.eq_placeholder_iff.2 (h.clear hp hold hne hget)
        obtain ⟨hlt, hget⟩ := List.getElem?_eq_some_iff.1 hget
        refine inOrder_of_children fun q _ => ?_
        rw [hchildren, hcph, ← hget, List.set_getElem_self]
        split_ifs with hq
        · rw [hq]
        · rfl
      · exact hf.inOrder_replaceAt hmoved hat
    · intro q d j hq hd hdne hph
      rw [hchildren] at hph
      split_ifs at hph with hqp
      · rw [List.getElem?_set] at hph
        split_ifs at hph
        · exact hc.eq_placeholder_iff.1 (Option.some.inj hph)
        · exact h.clear hq hd hdne (hqp ▸ hph)
      · exact h.clear hq hd hdne hph

end Forest

/-! ### Edits that keep to a condition -/

namespace Edit

section rules

variable {α β : Type} {I : Forest → Prop} {a : Edit α} {k : α → Edit β}

/-- Whether an edit, which may fail, leaves each forest that meets a condition so that it meets it. -/
def Maintains (I : Forest → Prop) (a : Edit α) : Prop := ∀ f, I f → I (a.run f).2

theorem maintains_pure (x : α) : (pure x : Edit α).Maintains I := fun _ hf => hf

theorem Maintains.bind (ha : a.Maintains I) (hk : ∀ x, (k x).Maintains I) :
    (a >>= k).Maintains I := by
  intro f hf
  rw [run_bind]
  cases (a.run f).1 with
  | error fault => exact ha f hf
  | ok x => exact hk x _ (ha f hf)

theorem maintains_get_bind {k : Forest → Edit β} (h : ∀ f, I f → I ((k f).run f).2) :
    (get >>= k).Maintains I := by
  intro f hf
  rw [run_bind]
  exact h f hf

theorem maintains_mapM {l : List α} (h : ∀ x ∈ l, (k x).Maintains I) :
    (l.mapM k).Maintains I := by
  induction l with
  | nil => exact maintains_pure []
  | cons x l ih =>
    rw [List.mapM_cons]
    refine (h x List.mem_cons_self).bind fun _ => ?_
    exact (ih fun y hy => h y (List.mem_cons_of_mem _ hy)).bind fun _ => maintains_pure _

end rules

section

variable (he : e.Linked) (hn : e.Has n)
include he hn

/-- Only a name is exchanged, and the placeholder is none. -/
theorem maintains_substituteAt (name : String) {deeper : Edit Nat} (hp : e.Has p)
    (hc : (e.children p)[i]? = some c) (hdeeper : deeper.Maintains (e.Substituted n)) :
    (substituteAt name n p i c deeper).Maintains (e.Substituted n) := by
  refine maintains_get_bind fun f h => ?_
  dsimp only
  split
  · exact h
  · rename_i hkind
    split
    · split_ifs
      · have hf := he.steps h.steps
        have hne : c ≠ .placeholder := by
          rintro rfl
          rw [hf.head_placeholder] at hkind
          cases hkind
        obtain ⟨d, g, hrun, hd⟩ := copy_spec hf.ready (h.steps.has hn)
        have hg := (h.copied he hd).replaceAt he hp hc hne hd.mirrors hd.replica.has
          fun hdne hed => hd.fresh hdne (h.steps.has hed)
        rw [run_bind, hrun]
        dsimp only
        rw [run_bind, run_discard]
        cases ((replaceAt p i d).run g).1 <;> exact hg
      · exact h
    · exact h
  · split_ifs
    · exact h
    · exact hdeeper f h

theorem maintains_substituteSpine (name : String) (hp : e.Has p) :
    (substituteSpine name n (e.spine p)).Maintains (e.Substituted n) := by
  refine he.below_induction (P := fun p =>
    (substituteSpine name n (e.spine p)).Maintains (e.Substituted n)) (fun p hp ih => ?_) hp
  rw [he.spine_eq hp, substituteSpine, Rose.para_node]
  refine maintains_get_bind fun f h => Maintains.bind (maintains_mapM fun b hb => ?_)
    (fun _ => maintains_pure _) f h
  obtain ⟨⟨t, deeper⟩, i⟩ := b
  have hget := List.mk_mem_zipIdx_iff_getElem?.1 hb
  rw [List.getElem?_take, List.map_map, List.getElem?_map] at hget
  split_ifs at hget
  obtain ⟨c, hc, hct⟩ := Option.map_eq_some_iff.1 hget
  cases hct
  have hmem := List.mem_of_getElem? hc
  have hlabel : (e.spine c).label = c := by
    rw [he.spine_eq (he.has_of_mem hmem)]
    rfl
  change (substituteAt name n p i (e.spine c).label _).Maintains _
  rw [hlabel]
  exact maintains_substituteAt he hn name hp hc (ih c hmem)

theorem substituted_substitute (name : String) (hp : e.Has p) :
    e.Substituted n ((substitute p name n).run e).2 := by
  rw [substitute, run_bind]
  exact maintains_substituteSpine he hn name hp e (.refl e n)

end

end Edit

end MathTree

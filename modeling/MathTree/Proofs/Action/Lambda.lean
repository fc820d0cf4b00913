import MathTree.Proofs.Action.Wrapping

/-!
# The layout of a `lambda`

A `lambda` to which children only come as bound variables or as its body, and from which they may go
in any way, holds its bound variables first and then its body, if it has one (`Forest.BoundFirst`).
One action breaks this: to add a bound variable that is a child already, while there is a body, puts
the variable behind the body (`Forest.Displaces`).
-/

namespace MathTree

open Forest

variable {f g : Forest} {n p c v b : NodeId} {action : Action} {actions : List Action} {k : Nat}
  {φ ψ : NodeId → Kind} {l l' bound rest : List NodeId}

namespace Forest

/-- A `lambda` holds these bound variables before any other child, of which there is at most one.  It
counts them rightly and gives the other child as its body. -/
structure LaidOut (f : Forest) (p : NodeId) (bound rest : List NodeId) : Prop where
  children : f.children p = bound ++ rest
  kind_bound : ∀ c ∈ bound, f.kind c = .qualifier .bvar
  kind_rest : ∀ c ∈ rest, f.kind c ≠ .qualifier .bvar
  length_rest : rest.length ≤ 1
  boundCount : (f.head p).boundCount = .ok bound.length
  body : ∀ b ∈ rest, f.body p = .ok b

/-- Whether a `lambda` holds its bound variables first and then its body, if it has one. -/
def BoundFirst (f : Forest) (p : NodeId) : Prop := ∃ bound rest, f.LaidOut p bound rest

/-- Whether an action adds a bound variable to a `lambda` that has that one already, and a body. -/
def Displaces (f : Forest) (p : NodeId) : Action → Prop
  | .addBound q v => q = p ∧ v ∈ f.children p ∧ f.kind v = .qualifier .bvar ∧
      ∃ b ∈ f.children p, f.kind b ≠ .qualifier .bvar
  | _ => False

/-- Whether an action adds a bound variable to a `lambda`, sets its body or takes away a child that it
shows, or else gives it no child; and does not change the kind of a child that it has. -/
def Tends (p : NodeId) (f : Forest) (action : Action) : Prop :=
  f.Admits action ∧
  ((∃ v, action = .addBound p v) ∨ (∃ b, action = .setBody p b) ∨ (∃ i, action = .removeAt p i) ∨
    ((f.after action).children p).Sublist (f.children p)) ∧
  ∀ n ∈ f.children p, ∀ kind, action ≠ .setKind n kind

/-! ### Lists of children -/

/-- Whether a list holds bound variables first, and then at most one other node. -/
def Ordered (φ : NodeId → Kind) (l : List NodeId) : Prop :=
  ∃ bound rest, l = bound ++ rest ∧ (∀ c ∈ bound, φ c = .qualifier .bvar) ∧
    (∀ c ∈ rest, φ c ≠ .qualifier .bvar) ∧ rest.length ≤ 1

theorem Ordered.congr (h : Ordered φ l) (hkind : ∀ c ∈ l, ψ c = φ c) : Ordered ψ l :=
  Parted.mono h (fun c hc hb => (hkind c hc).trans hb) fun c hc hr => hkind c hc ▸ hr

theorem Ordered.sublist (h : Ordered φ l) (hl : l'.Sublist l) : Ordered φ l' := Parted.sublist h hl

/-- Behind bound variables any one node may stand. -/
theorem ordered_append_one (hbound : ∀ c ∈ bound, φ c = .qualifier .bvar) (c : NodeId) :
    Ordered φ (bound ++ [c]) := by
  by_cases hc : φ c = .qualifier .bvar
  · refine ⟨bound ++ [c], [], (List.append_nil _).symm, fun d hd => ?_, nofun, Nat.zero_le 1⟩
    rcases List.mem_append.1 hd with hd | hd
    · exact hbound d hd
    · rw [List.mem_singleton.1 hd, hc]
  · refine ⟨bound, [c], rfl, hbound, fun d hd => ?_, Nat.le_refl 1⟩
    rwa [List.mem_singleton.1 hd]

/-- A bound variable may be put between the others and the body. -/
theorem ordered_insertIdx (hbound : ∀ c ∈ bound, φ c = .qualifier .bvar)
    (hrest : ∀ c ∈ rest, φ c ≠ .qualifier .bvar) (hlen : rest.length ≤ 1)
    (hc : φ c = .qualifier .bvar) : Ordered φ ((bound ++ rest).insertIdx bound.length c) := by
  rw [insertIdx_length_append]
  refine ⟨bound ++ [c], rest, by simp, fun d hd => ?_, hrest, hlen⟩
  rcases List.mem_append.1 hd with hd | hd
  · exact hbound d hd
  · rw [List.mem_singleton.1 hd, hc]

/-- Behind a bound variable there is nothing else. -/
theorem not_ordered_append (hb : φ b ≠ .qualifier .bvar) (hv : φ v = .qualifier .bvar)
    (hmem : b ∈ l) : ¬ Ordered φ (l ++ [v]) := by
  rintro ⟨bound, rest, heq, hbound, hrest, -⟩
  rcases List.eq_nil_or_concat rest with rfl | ⟨rest, d, rfl⟩
  · rw [List.append_nil] at heq
    exact hb (hbound b (heq ▸ List.mem_append_left _ hmem))
  · rw [List.concat_eq_append, ← List.append_assoc] at heq
    have hvd := List.append_inj_right' heq rfl
    rw [List.cons.injEq] at hvd
    exact hrest d (by simp) (hvd.1 ▸ hv)

/-! ### The layout -/

theorem countChildren_of_split (hsplit : f.children p = bound ++ rest)
    (hbound : ∀ c ∈ bound, f.kind c = .qualifier .bvar)
    (hrest : ∀ c ∈ rest, f.kind c ≠ .qualifier .bvar) :
    f.countChildren p (.qualifier .bvar) = bound.length := by
  rw [countChildren, hsplit, List.countP_append,
    List.countP_eq_length.2 fun c hc => by simpa using hbound c hc,
    List.countP_eq_zero.2 fun c hc => by simpa using hrest c hc, Nat.add_zero]

theorem capacity_of_lambda (h : (f.head p).form = .lambda) : (f.head p).capacity = none := by
  rw [Head.capacity, h]
  rfl

/-- All of the layout comes from the order of the children, once they are counted rightly. -/
theorem boundFirst_iff : f.BoundFirst p ↔
    (f.head p).form = .lambda ∧ f.Counted p ∧ Ordered f.kind (f.children p) := by
  refine ⟨fun ⟨bound, rest, h⟩ => ?_,
    fun ⟨hform, hcounted, bound, rest, hsplit, hbound, hrest, hlen⟩ => ?_⟩
  · have hform := Head.form_of_boundCount h.boundCount
    refine ⟨hform, ⟨fun _ => ?_, fun he => ?_⟩, bound, rest, h.children, h.kind_bound, h.kind_rest,
      h.length_rest⟩
    · rw [h.boundCount, countChildren_of_split h.children h.kind_bound h.kind_rest]
    · rw [hform] at he
      cases he
  · have hcount := hcounted.1 hform
    rw [countChildren_of_split hsplit hbound hrest] at hcount
    refine ⟨bound, rest, hsplit, hbound, hrest, hlen, hcount, fun b hb => ?_⟩
    have hone : rest = [b] := by
      match rest, hlen, hb with
      | [d], _, hb => rw [List.mem_singleton.1 hb]
    have hlt : bound.length < f.childCount p := by
      rw [childCount_of_capacity (capacity_of_lambda hform), hsplit, hone]
      simp
    obtain ⟨old, hold, hat⟩ := childAt_of_lt hlt
    rw [hsplit, hone, List.getElem?_concat_length] at hold
    cases hold
    rw [body, hcount]
    exact hat

namespace LaidOut

variable (h : f.LaidOut p bound rest)
include h

theorem form : (f.head p).form = .lambda := Head.form_of_boundCount h.boundCount

theorem childCount : f.childCount p = bound.length + rest.length := by
  rw [childCount_of_capacity (capacity_of_lambda h.form), h.children, List.length_append]

theorem roomFault? : f.roomFault? p c = none :=
  roomFault?_eq_none_iff.2 fun k hk => by rw [capacity_of_lambda h.form] at hk; cases hk

theorem mem_bound (hv : v ∈ f.children p) (hkind : f.kind v = .qualifier .bvar) : v ∈ bound := by
  rw [h.children] at hv
  exact (List.mem_append.1 hv).resolve_right fun hv => h.kind_rest v hv hkind

theorem mem_rest (hv : v ∈ f.children p) (hkind : f.kind v ≠ .qualifier .bvar) : v ∈ rest := by
  rw [h.children] at hv
  exact (List.mem_append.1 hv).resolve_left fun hv => hkind (h.kind_bound v hv)

/-! ### Adding a bound variable -/

/-- A bound variable that is a child already goes behind the body. -/
theorem children_addBound_of_mem (hl : f.Linked) (hp : f.Has p) (hv : f.parent v = some p)
    (hkind : f.kind v = .qualifier .bvar)
    (hother : ∃ b ∈ f.children p, f.kind b ≠ .qualifier .bvar) :
    (f.after (.addBound p v)).children p = bound.erase v ++ rest ++ [v] := by
  obtain ⟨b, hb, hbkind⟩ := hother
  have hmem := hl.mem_of_parent hv
  have hvb := h.mem_bound hmem hkind
  have hpos := List.length_pos_of_mem hvb
  have hone : rest.length = 1 :=
    Nat.le_antisymm h.length_rest (List.length_pos_of_mem (h.mem_rest hb hbkind))
  have hchildren : (f.detach v).children p = bound.erase v ++ rest := by
    rw [hl.children_detach, if_pos hv, h.children, List.erase_append_left _ hvb]
  have hroom : f.roomTaken p v = bound.length := by
    rw [← hl.length_children_detach, hchildren, List.length_append, List.length_erase_of_mem hvb]
    omega
  have hi : f.insertFault? p bound.length v = none := insertFault?_eq_none_iff.2
    ⟨hl.adoptFault?_of_parent hv, h.roomFault?, Nat.le_of_eq hroom.symm⟩
  rw [after_map rfl, Edit.run_addBound (hl.has_of_mem hmem), h.boundCount]
  simp only [if_pos hkind, Edit.run_insertAt, hi]
  rw [(rehung_link (has_detach.2 hp) _ v).children, if_pos rfl, hchildren,
    ← List.insertIdx_length_self]
  congr 1
  rw [← hchildren, hl.length_children_detach, hroom]

/-- What is in the way of a bound variable is that it is a child already, and the last one. -/
theorem insertFault?_wrap_eq_none (hl : f.Linked) (hp : f.Has p) (hv : f.Has v)
    (hkind : f.kind v ≠ .qualifier .bvar) (ha : f.adoptFault? p v = none) :
    (f.wrap .bvar v).insertFault? p bound.length f.next = none := by
  have hle : bound.length ≤ (f.children p).length := by simp [h.children]
  by_contra hi
  obtain ⟨-, hmem, hlen⟩ := (insertFault?_wrap hl hp hv h.boundCount hle ha).1 hi
  have hpos := List.length_pos_of_mem (h.mem_rest hmem hkind)
  rw [h.children, List.length_append] at hlen
  omega

/-- A bound variable that finds its place without being displaced is no child yet. -/
theorem parent_ne_of_insertFault? (hl : f.Linked) (hkind : f.kind v = .qualifier .bvar)
    (hnot : ¬ f.Displaces p (.addBound p v)) (hi : f.insertFault? p bound.length v = none) :
    f.parent v ≠ some p := by
  intro hvp
  have hmem := hl.mem_of_parent hvp
  have hpos := List.length_pos_of_mem hmem
  have hnil : rest = [] := by
    by_contra hne
    obtain ⟨b, hb⟩ := List.exists_mem_of_ne_nil rest hne
    exact hnot ⟨rfl, hmem, hkind, b, h.children ▸ List.mem_append_right _ hb, h.kind_rest b hb⟩
  -- without the variable there are too few children for that position
  have hroom := (insertFault?_eq_none_iff.1 hi).2.2
  rw [← hl.length_children_detach, hl.children_detach, if_pos hvp, List.length_erase_of_mem hmem,
    h.children, hnil, List.append_nil] at hroom
  rw [h.children, hnil, List.append_nil] at hpos
  omega

theorem children_link_bound (hl : f.Linked) (hp : f.Has p) (hvp : f.parent v ≠ some p) :
    ((f.detach v).link p bound.length v).children p = bound ++ v :: rest := by
  rw [(rehung_link (has_detach.2 hp) _ v).children, if_pos rfl, hl.children_detach, if_neg hvp,
    h.children, insertIdx_length_append]

/-- What is wrapped may have been the body, but was no bound variable. -/
theorem children_link_wrap (hl : f.Linked) (hp : f.Has p) (hv : f.Has v)
    (hkind : f.kind v ≠ .qualifier .bvar) :
    (((f.wrap .bvar v).detach f.next).link p bound.length f.next).children p
      = bound ++ f.next :: if f.parent v = some p then rest.erase v else rest := by
  have hw := wrapped_wrap hl hv .bvar
  have hvb : v ∉ bound := fun hv => hkind (h.kind_bound v hv)
  rw [(rehung_link (has_detach.2 (hw.steps.has hp)) _ _).children, if_pos rfl,
    detach_of_parent_none hw.free, children_wrap hl hp, h.children, List.erase_append_right _ hvb]
  split_ifs <;> rw [insertIdx_length_append]

/-- Any other new bound variable goes behind those that are there. -/
theorem children_addBound (hl : f.Linked) (hp : f.Has p) (hv : f.Has v)
    (hnot : ¬ f.Displaces p (.addBound p v)) :
    (f.after (.addBound p v)).children p = bound ++ rest ∨
      ∃ c rest', (f.after (.addBound p v)).children p = bound ++ c :: rest' ∧ rest'.Sublist rest ∧
        (f.after (.addBound p v)).kind c = .qualifier .bvar := by
  rw [after_map rfl, Edit.run_addBound hv, h.boundCount]
  dsimp only
  split_ifs with hkind
  · rw [Edit.run_insertAt]
    cases hi : f.insertFault? p bound.length v with
    | some fault => exact .inl h.children
    | none =>
      have hvp := h.parent_ne_of_insertFault? hl hkind hnot hi
      have hs := Edit.steps_insert hl.ready ⟨hp, trivial⟩ ⟨hv, trivial⟩ hi
      exact .inr ⟨v, rest, h.children_link_bound hl hp hvp, .refl rest, (hs.kind hv).trans hkind⟩
  · cases ha : f.adoptFault? p v with
    | some fault => exact .inl h.children
    | none =>
      have hi := h.insertFault?_wrap_eq_none hl hp hv hkind ha
      have hw := wrapped_wrap hl hv .bvar
      have hs := Edit.steps_insert (hw.linked hl).ready ⟨hw.steps.has hp, trivial⟩
        ⟨hw.has, trivial⟩ hi
      rw [hi]
      refine .inr ⟨f.next, _, h.children_link_wrap hl hp hv hkind, ?_, ?_⟩
      · split_ifs
        · exact List.erase_sublist
        · exact .refl rest
      · refine (hs.kind hw.has).trans ?_
        rw [kind, hw.head]
        rfl

/-! ### Setting the body -/

omit h in
/-- Behind bound variables only the last place is that of another node. -/
theorem eq_length_of_getElem? {i : Nat} (hbound : ∀ c ∈ bound, f.kind c = .qualifier .bvar)
    (hb : f.kind b ≠ .qualifier .bvar) (hi : (bound ++ [b])[i]? = some b) : i = bound.length := by
  obtain ⟨hlt, hget⟩ := List.getElem?_eq_some_iff.1 hi
  rw [List.length_append, List.length_singleton] at hlt
  by_contra hne
  have hi' : i < bound.length := by omega
  rw [List.getElem_append_left hi'] at hget
  exact hb (hbound b (hget ▸ List.getElem_mem hi'))

/-- Without the new body, the old one still stands behind bound variables. -/
theorem children_detach_of_ne (hl : f.Linked) {r : NodeId} (hr : rest = [r])
    (hcur : ¬ (b ≠ .placeholder ∧ f.positionOf p b = some bound.length)) :
    ∃ bound', bound'.Sublist bound ∧ (f.detach b).children p = bound' ++ [r] := by
  rw [hl.children_detach, h.children, hr]
  split_ifs with hbp
  · have hmem : b ∈ bound := by
      by_contra hb
      refine hcur ⟨hl.ne_placeholder_of_parent hbp, ?_⟩
      have hbr : b = r := by
        have hmem := hl.mem_of_parent hbp
        rw [h.children, hr] at hmem
        exact List.mem_singleton.1 ((List.mem_append.1 hmem).resolve_left hb)
      rw [positionOf, h.children, hr, ← hbr, List.idxOf?_eq_some_iff]
      refine ⟨by simp, by simp, fun j hj => ?_⟩
      rw [List.getElem_append_left hj]
      exact fun he => hb (he ▸ List.getElem_mem hj)
    exact ⟨bound.erase b, List.erase_sublist, List.erase_append_left _ hmem⟩
  · exact ⟨bound, .refl bound, rfl⟩

/-- A new body takes the place of the old one. -/
theorem children_replaceBody (hl : f.Linked) (hp : f.Has p) {r : NodeId} (hr : rest = [r]) :
    let g := ((Edit.replaceAt p bound.length b).run f).2
    g.children p = f.children p ∨
      ∃ bound', bound'.Sublist bound ∧ g.children p = bound' ++ [b] := by
  have hlt : bound.length < f.childCount p := by
    rw [h.childCount, hr]
    exact Nat.lt_succ_self _
  obtain ⟨old, hold, hat⟩ := childAt_of_lt hlt
  rw [h.children, hr, List.getElem?_concat_length] at hold
  cases hold
  rw [Edit.run_replaceAt hl]
  cases f.adoptFault? p b with
  | some fault => exact .inl rfl
  | none =>
    simp only [hat]
    split_ifs with hcur
    · exact .inl rfl
    · obtain ⟨bound', hsub, hdetach⟩ := h.children_detach_of_ne hl hr hcur
      have hslot := hl.getElem?_slot hcur
      rw [hdetach, h.children, hr, List.getElem?_concat_length] at hslot
      have hi := eq_length_of_getElem? (fun c hc => h.kind_bound c (hsub.subset hc))
        (h.kind_rest r (hr ▸ List.mem_cons_self)) hslot
      have hu := rehung_unlink (f := f.detach b) (has_detach.2 hp) (f.slot p bound.length b) r
      have hpu : ((f.detach b).unlink p (f.slot p bound.length b) r).Has p := by
        rw [Has, hu.size]
        exact has_detach.2 hp
      refine .inr ⟨bound', hsub, ?_⟩
      rw [(rehung_link hpu _ b).children, if_pos rfl, hu.children, if_pos rfl, hdetach, hi,
        List.eraseIdx_append_of_length_le (Nat.le_refl _), Nat.sub_self, List.eraseIdx_cons_zero,
        List.append_nil, List.insertIdx_length_self]

/-- The first body goes behind the bound variables that stay. -/
theorem children_appendBody (hl : f.Linked) (hp : f.Has p) (hr : rest = []) :
    let g := ((Edit.append p b).run f).2
    g.children p = f.children p ∨
      ∃ bound', bound'.Sublist bound ∧ g.children p = bound' ++ [b] := by
  rw [Edit.run_append, Edit.run_insertAt]
  cases f.insertFault? p (f.roomTaken p b) b with
  | some fault => exact .inl rfl
  | none =>
    refine .inr ⟨(f.detach b).children p, ?_, ?_⟩
    · have hsub := hl.children_detach_sublist (n := b) (m := p)
      rwa [h.children, hr, List.append_nil] at hsub
    · rw [(rehung_link (has_detach.2 hp) _ b).children, if_pos rfl,
        ← hl.length_children_detach, List.insertIdx_length_self]

/-- The new body goes behind bound variables, in the place of the old one. -/
theorem children_setBody (hl : f.Linked) (hp : f.Has p) :
    (f.after (.setBody p b)).children p = f.children p ∨
      ∃ bound', bound'.Sublist bound ∧ (f.after (.setBody p b)).children p = bound' ++ [b] := by
  rw [after_map rfl]
  simp only [Edit.setBody, Edit.replaceOrAppend, Edit.run_bind, Edit.run_get, Edit.run_lift,
    h.boundCount, Edit.run_ite, h.childCount, Edit.run_discard]
  have hlen := h.length_rest
  split_ifs with hlt
  · obtain ⟨r, hr⟩ := List.length_eq_one_iff.1 (show rest.length = 1 by omega)
    exact h.children_replaceBody hl hp hr
  · exact h.children_appendBody hl hp (List.length_eq_zero_iff.1 (by omega))

end LaidOut

/-! ### Along a run -/

theorem BoundFirst.has (h : f.BoundFirst p) : f.Has p := by
  obtain ⟨bound, rest, h⟩ := h
  by_contra hn
  have hform := h.form
  rw [head, get_of_not_has f hn] at hform
  cases hform

/-- An action that tends a `lambda` leaves its children in order, unless it displaces one. -/
theorem ordered_after (hf : f.Reachable) (h : f.BoundFirst p) (ht : Tends p f action)
    (hnot : ¬ f.Displaces p action) :
    Ordered (f.after action).kind ((f.after action).children p) := by
  have hl := hf.linked
  have hp := h.has
  have he := effect hl ht.1
  have hkind (c : NodeId) (hc : c ∈ f.children p) : (f.after action).kind c = f.kind c :=
    he.kind (hl.has_of_mem hc) (ht.2.2 c hc)
  have hsublist (hs : ((f.after action).children p).Sublist (f.children p)) :
      Ordered (f.after action).kind ((f.after action).children p) :=
    ((boundFirst_iff.1 h).2.2.congr hkind).sublist hs
  obtain ⟨bound, rest, h⟩ := h
  have hb (c : NodeId) (hc : c ∈ bound) : (f.after action).kind c = .qualifier .bvar := by
    rw [hkind c (h.children ▸ List.mem_append_left _ hc), h.kind_bound c hc]
  have hr (c : NodeId) (hc : c ∈ rest) : (f.after action).kind c ≠ .qualifier .bvar := by
    rw [hkind c (h.children ▸ List.mem_append_right _ hc)]
    exact h.kind_rest c hc
  rcases ht.2.1 with ⟨v, rfl⟩ | ⟨b, rfl⟩ | ⟨i, rfl⟩ | hs
  · have hv : f.Has v := ht.1 v (by simp [Action.nodes])
    rcases h.children_addBound hl hp hv hnot with hsame | ⟨c, rest', heq, hsub, hc⟩
    · rw [hsame]
      exact ⟨bound, rest, rfl, hb, hr, h.length_rest⟩
    · rw [heq, ← insertIdx_length_append]
      exact ordered_insertIdx hb (fun d hd => hr d (hsub.subset hd))
        (Nat.le_trans hsub.length_le h.length_rest) hc
  · rcases h.children_setBody (b := b) hl hp with hsame | ⟨bound', hsub, heq⟩
    · exact hsublist (hsame ▸ .refl _)
    · rw [heq]
      exact ordered_append_one (fun c hc => hb c (hsub.subset hc)) b
  · exact hsublist (children_removeAt_sublist hp i)
  · exact hsublist hs

/-- A displaced bound variable stands behind the body. -/
theorem not_ordered_after (hf : f.Reachable) (h : f.BoundFirst p) (ht : Tends p f action)
    (hd : f.Displaces p action) :
    ¬ Ordered (f.after action).kind ((f.after action).children p) := by
  cases action with
  | addBound q v =>
    obtain ⟨rfl, hv, hkind, b, hb, hbkind⟩ := hd
    have hl := hf.linked
    have hne : v ≠ .placeholder := by
      rintro rfl
      rw [kind, hl.head_placeholder] at hkind
      cases hkind
    have hp := h.has
    obtain ⟨bound, rest, h⟩ := h
    rw [h.children_addBound_of_mem hl hp ((hl.parent_iff hne).2 hv) hkind ⟨b, hb, hbkind⟩]
    have hsame (c : NodeId) (hc : c ∈ f.children q) :
        (f.after (.addBound q v)).kind c = f.kind c :=
      (effect hl ht.1).kind (hl.has_of_mem hc) (ht.2.2 c hc)
    refine not_ordered_append ?_ ((hsame v hv).trans hkind)
      (List.mem_append_right _ (h.mem_rest hb hbkind))
    rwa [hsame b hb]
  | _ => exact hd.elim

/-- The layout is kept by an action that tends the `lambda` just if it displaces no bound variable. -/
theorem boundFirst_after_iff (hf : f.Reachable) (ht : Tends p f action) (h : f.BoundFirst p) :
    (f.after action).BoundFirst p ↔ ¬ f.Displaces p action := by
  have hl := hf.linked
  have he := effect hl ht.1
  have hcounted : (f.after action).Counted p := by
    refine he.counted_of_has hl h.has (boundFirst_iff.1 h).2.1 fun n kind hn hm => ?_
    exact ht.2.2 n (hl.mem_of_parent hm.1) kind hn
  have hform : ((f.after action).head p).form = .lambda := by
    rw [he.form h.has]
    exact (boundFirst_iff.1 h).1
  rw [boundFirst_iff]
  refine ⟨fun hg hd => not_ordered_after hf h ht hd hg.2.2, fun hnot => ?_⟩
  exact ⟨hform, hcounted, ordered_after hf h ht hnot⟩

/-- Along a run that tends a `lambda`, it always holds its bound variables before its body, unless at
some point a bound variable is added that it has already. -/
theorem boundFirst_iff_not_displaces (hf : f.Reachable) (h : f.BoundFirst p)
    (ht : f.Along (Tends p) actions) :
    f.Throughout (fun f => f.BoundFirst p) actions ↔
      f.Along (fun f action => ¬ f.Displaces p action) actions :=
  throughout_iff_along (fun hf ht h => boundFirst_after_iff hf ht h) (fun ht => ht.1) hf ht h

theorem boundFirst_of_children_nil (hf : f.Reachable) (hform : (f.head p).form = .lambda)
    (hnil : f.children p = []) : f.BoundFirst p :=
  boundFirst_iff.2 ⟨hform, hf.counted_of_children_nil hnil, [], [], hnil, nofun, nofun,
    Nat.zero_le 1⟩

/-- A run that adds bound variables to a `lambda` and sets its body tends it. -/
theorem along_tends (h : ∀ action ∈ actions,
    (∃ v, action = .addBound p v) ∨ ∃ b, action = .setBody p b) (ha : f.Along Admits actions) :
    f.Along (Tends p) actions := by
  induction actions generalizing f with
  | nil => trivial
  | cons action actions ih =>
    refine ⟨⟨ha.1, ?_, ?_⟩, ih (fun a hm => h a (List.mem_cons_of_mem _ hm)) ha.2⟩
    · exact (h action List.mem_cons_self).imp_right .inl
    · rcases h action List.mem_cons_self with ⟨v, rfl⟩ | ⟨b, rfl⟩ <;> exact fun _ _ => nofun

/-- Makes a `lambda`, node one, and two names. -/
def loneLambda : List Action :=
  [.plant (.ofKind .lambda), .plant (.identifier "x"), .plant (.identifier "y")]

theorem boundFirst_body :
    let f := start.run loneLambda
    f.Reachable ∧ f.BoundFirst ⟨1⟩ ∧ f.Along (Tends ⟨1⟩) [.addBound ⟨1⟩ ⟨2⟩, .setBody ⟨1⟩ ⟨3⟩] ∧
      f.Throughout (fun f => f.BoundFirst ⟨1⟩) [.addBound ⟨1⟩ ⟨2⟩, .setBody ⟨1⟩ ⟨3⟩] := by
  have ha : start.Along Admits loneLambda := by decide
  have hf := Reachable.start.run ha
  have hb : (start.run loneLambda).BoundFirst ⟨1⟩ :=
    boundFirst_of_children_nil hf (by decide) (by decide)
  have ht : (start.run loneLambda).Along (Tends ⟨1⟩) [.addBound ⟨1⟩ ⟨2⟩, .setBody ⟨1⟩ ⟨3⟩] :=
    along_tends (by simp) (by decide)
  refine ⟨hf, hb, ht, (boundFirst_iff_not_displaces hf hb ht).2 ⟨fun h => ?_, id, trivial⟩⟩
  exact absurd h.2.1 (by decide)

/-- The bound variable that is added once more ends up behind the body, and is given as the body. -/
theorem displaces_bound :
    let f := start.run loneLambda
    let actions := [.addBound ⟨1⟩ ⟨2⟩, .setBody ⟨1⟩ ⟨3⟩, .addBound ⟨1⟩ ⟨4⟩]
    f.Reachable ∧ f.children ⟨1⟩ = [] ∧ f.Along (Tends ⟨1⟩) actions ∧
      (f.run actions).children ⟨1⟩ = [⟨3⟩, ⟨4⟩] ∧ (f.run actions).kind ⟨3⟩ = .name ∧
      (f.run actions).kind ⟨4⟩ = .qualifier .bvar ∧ (f.run actions).body ⟨1⟩ = .ok ⟨4⟩ := by
  have ha : start.Along Admits loneLambda := by decide
  exact ⟨Reachable.start.run ha, by decide, along_tends (by simp) (by decide +kernel),
    by decide +kernel⟩

end Forest

end MathTree

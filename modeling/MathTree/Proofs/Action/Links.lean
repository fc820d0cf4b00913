import MathTree.Proofs.Action.Effect

/-!
# Links in every forest that can be reached

Whatever is done to a forest, and whether it fails or not, the links of its nodes agree and form
trees (`Reachable.links_agree`).  A property that holds along runs is shown for one action and
carried over (`throughout_iff_along`).
-/

namespace MathTree.Forest

variable {f : Forest} {m n p c : NodeId} {action : Action} {actions : List Action}

/-! ### Runs -/

theorem Linked.after (hf : f.Linked) (ha : f.Admits action) : (f.after action).Linked :=
  (effect hf ha).linked hf

theorem Reachable.linked (hf : f.Reachable) : f.Linked := by
  induction hf with
  | start => exact linked_start
  | after _ ha ih => exact ih.after ha

theorem Reachable.run (hf : f.Reachable) (ha : f.Along Admits actions) :
    (f.run actions).Reachable := by
  induction actions generalizing f with
  | nil => exact hf
  | cons action actions ih => exact ih (hf.after ha.1) ha.2

/-- A property that each action keeps on a condition is kept along a run just if the condition is met
along it. -/
theorem throughout_iff_along {P : Forest → Prop} {Q R : Forest → Action → Prop}
    (h : ∀ {f : Forest} {action : Action}, f.Reachable → R f action → P f →
      (P (f.after action) ↔ Q f action))
    (hadmits : ∀ {f : Forest} {action : Action}, R f action → f.Admits action)
    (hf : f.Reachable) (hr : f.Along R actions) (hp : P f) :
    f.Throughout P actions ↔ f.Along Q actions := by
  induction actions generalizing f with
  | nil => exact iff_of_true hp trivial
  | cons action actions ih =>
    have hstep := h hf hr.1 hp
    have hnext := hf.after (hadmits hr.1)
    refine ⟨fun ht => ?_, fun ht => ?_⟩
    · have hp' : P (f.after action) := by
        cases actions with
        | nil => exact ht.2
        | cons => exact ht.2.1
      exact ⟨hstep.1 hp', (ih hnext hr.2 hp').1 ht.2⟩
    · have hp' := hstep.2 ht.1
      exact ⟨hp, (ih hnext hr.2 hp').2 ht.2⟩

/-- A property that each action keeps is kept along a run. -/
theorem throughout_of_along {P : Forest → Prop} {R : Forest → Action → Prop}
    (h : ∀ {f : Forest} {action : Action}, f.Reachable → R f action → P f → P (f.after action))
    (hadmits : ∀ {f : Forest} {action : Action}, R f action → f.Admits action)
    (hf : f.Reachable) (hr : f.Along R actions) (hp : P f) : f.Throughout P actions := by
  induction actions generalizing f with
  | nil => exact hp
  | cons action actions ih => exact ⟨hp, ih (hf.after (hadmits hr.1)) hr.2 (h hf hr.1 hp)⟩

theorem Throughout.imp {P P' : Forest → Prop} (ht : f.Throughout P actions)
    (h : ∀ f, P f → P' f) : f.Throughout P' actions := by
  induction actions generalizing f with
  | nil => exact h f ht
  | cons action actions ih => exact ⟨h f ht.1, ih ht.2⟩

/-- A condition that every action meets that meets another is met along a run. -/
theorem along_of_along {Q R : Forest → Action → Prop}
    (h : ∀ {f : Forest} {action : Action}, f.Reachable → R f action → Q f action)
    (hadmits : ∀ {f : Forest} {action : Action}, R f action → f.Admits action)
    (hf : f.Reachable) (hr : f.Along R actions) : f.Along Q actions := by
  induction actions generalizing f with
  | nil => trivial
  | cons action actions ih => exact ⟨h hf hr.1, ih (hf.after (hadmits hr.1)) hr.2⟩

/-! ### Lists of children -/

/-- Whether a list holds nodes of one sort first, and then at most one of another. -/
def Parted (P Q : NodeId → Prop) (l : List NodeId) : Prop :=
  ∃ front back, l = front ++ back ∧ (∀ c ∈ front, P c) ∧ (∀ c ∈ back, Q c) ∧ back.length ≤ 1

theorem Parted.mono {P P' Q Q' : NodeId → Prop} {l : List NodeId} (h : Parted P Q l)
    (hP : ∀ c ∈ l, P c → P' c) (hQ : ∀ c ∈ l, Q c → Q' c) : Parted P' Q' l := by
  obtain ⟨front, back, rfl, hfront, hback, hlen⟩ := h
  refine ⟨front, back, rfl, fun c hc => ?_, fun c hc => ?_, hlen⟩
  · exact hP c (List.mem_append_left _ hc) (hfront c hc)
  · exact hQ c (List.mem_append_right _ hc) (hback c hc)

theorem Parted.sublist {P Q : NodeId → Prop} {l l' : List NodeId} (h : Parted P Q l)
    (hl : l'.Sublist l) : Parted P Q l' := by
  obtain ⟨front, back, rfl, hfront, hback, hlen⟩ := h
  obtain ⟨front', back', rfl, hf, hb⟩ := List.sublist_append_iff.1 hl
  exact ⟨front', back', rfl, fun c hc => hfront c (hf.subset hc), fun c hc => hback c (hb.subset hc),
    Nat.le_trans hb.length_le hlen⟩

theorem insertIdx_length_append (l l' : List NodeId) (c : NodeId) :
    (l ++ l').insertIdx l.length c = l ++ c :: l' := by
  induction l with
  | nil => rfl
  | cons b l ih => simp [ih]

theorem children_removeAt_sublist (hp : f.Has p) (i : Nat) :
    ((f.after (.removeAt p i)).children p).Sublist (f.children p) := by
  rw [after_map rfl]
  simp only [Edit.removeAt, Edit.run_bind, Edit.run_get, Edit.run_ite, Edit.run_pure,
    Edit.run_unlinkAt?]
  split_ifs
  · exact .refl _
  · cases hc : (f.children p)[i]? with
    | none => exact .refl _
    | some c =>
      simp only [Option.elim_some]
      rw [(rehung_unlink hp i c).children, if_pos rfl]
      exact List.eraseIdx_sublist _ _

/-- Without a node, of a list without the placeholder only that node is gone. -/
theorem Linked.children_detach_eq_filter (hf : f.Linked)
    (hne : ∀ d ∈ f.children p, d ≠ .placeholder) :
    (f.detach c).children p = (f.children p).filter (· ≠ c) := by
  rw [hf.children_detach]
  split_ifs with hc
  · have hnodup : (f.children p).Nodup := List.nodup_iff_count_le_one.2 fun d => by
      by_cases hd : d ∈ f.children p
      · exact hf.once p (hne d hd)
      · rw [List.count_eq_zero.2 hd]
        exact Nat.zero_le 1
    rw [hnodup.erase_eq_filter]
    exact List.filter_congr fun d _ => by rw [bne, beq_eq_decide, decide_not]
  · refine (List.filter_eq_self.2 fun d hd => ?_).symm
    have hdc : d ≠ c := by
      rintro rfl
      exact hc ((hf.parent_iff (hne d hd)).2 hd)
    simpa using hdc

/-! ### Links -/

/-- The lists of children of all nodes together, without the placeholder. -/
def held (f : Forest) : List NodeId :=
  ((List.range f.records.size).flatMap fun i => f.children ⟨i⟩).filter (· ≠ .placeholder)

theorem Linked.nodup_held (h : f.Linked) : f.held.Nodup := by
  unfold held
  rw [List.filter_flatMap, List.nodup_flatMap]
  refine ⟨fun i _ => ?_, ?_⟩
  · rw [List.nodup_iff_count_le_one]
    intro c
    by_cases hc : c = .placeholder
    · rw [List.count_eq_zero.2 (by simp [hc])]
      exact Nat.zero_le 1
    · rw [List.count_filter (by simpa using hc)]
      exact h.once ⟨i⟩ hc
  · refine List.nodup_range.imp fun {i j} hij => List.disjoint_left.2 fun c hci hcj => ?_
    -- both would be the parent of the child
    simp only [List.mem_filter, decide_eq_true_eq] at hci hcj
    have hi := (h.parent_iff hci.2).2 hci.1
    rw [(h.parent_iff hci.2).2 hcj.1] at hi
    exact hij (congrArg NodeId.index (Option.some.inj hi)).symm

/-- The parent of a node is the one that lists it as a child, no node but the placeholder is listed
twice, no way up comes back to where it started, no walk is cut off by its bound, and leaves have no
children. -/
theorem Reachable.links_agree (hf : f.Reachable) :
    (∀ p c : NodeId, p ≠ .placeholder → c ≠ .placeholder →
      (f.parent c = some p ↔ c ∈ f.children p)) ∧
    f.held.Nodup ∧
    (∀ n : NodeId, ¬ Relation.TransGen f.ChildOf n n) ∧
    (∀ n : NodeId, f.Has n → ∀ k, f.records.size ≤ k →
      f.lineageTo k n = f.lineage n ∧ f.spineTo k n = f.spine n) ∧
    (∀ n : NodeId, (f.head n).isLeaf → f.children n = []) := by
  have h := hf.linked
  refine ⟨fun p c _ hc => h.parent_iff hc, h.nodup_held, h.acyclic, fun n hn k hk => ?_,
    fun n => h.leaf⟩
  exact ⟨h.lineageTo_eq_lineage hn hk, h.spineTo_eq_spine hn hk⟩

/-- Makes a `lambda`, node one, with a bound variable, node three, around a name, node two. -/
def oneParameter : List Action :=
  [.plant (.ofKind .lambda), .plant (.identifier "x"), .addBound ⟨1⟩ ⟨2⟩]

theorem admits_oneParameter : start.Along Admits oneParameter := by decide

theorem links_agree_oneParameter :
    let f := start.run oneParameter
    f.Reachable ∧ f.Has ⟨2⟩ ∧ (f.parent ⟨2⟩ = some ⟨3⟩ ↔ ⟨2⟩ ∈ f.children ⟨3⟩) ∧ f.held.Nodup ∧
      f.lineageTo 9 ⟨2⟩ = f.lineage ⟨2⟩ ∧ f.children ⟨2⟩ = [] := by
  have hf := Reachable.start.run admits_oneParameter
  have h := hf.links_agree
  exact ⟨hf, by decide, h.1 _ _ (by decide) (by decide), h.2.1,
    (h.2.2.2.1 ⟨2⟩ (by decide) 9 (by decide)).1, h.2.2.2.2 ⟨2⟩ (by decide)⟩

end MathTree.Forest

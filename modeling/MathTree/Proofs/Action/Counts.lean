import MathTree.Proofs.Action.Links

/-!
# Counts in every forest that can be reached

A `lambda` keeps the number of its bound variables and a `piecewise` the number of its cases, and
whether it has a fallback.  These are counted whenever a child comes or goes, but not when a child
takes another kind.  `Forest.Miscounts` says which actions make a count wrong, and
`counted_iff_not_miscounts` that along a run all counts are right just if it has no such action.
-/

namespace MathTree

open Forest

variable {S : NodeId → Prop} {f g : Forest} {m n p c : NodeId} {action : Action}
  {actions : List Action}

namespace Forest

/-- Whether what a node says of the number of its children is right. -/
def Counted (f : Forest) (n : NodeId) : Prop :=
  ((f.head n).form = .lambda →
    (f.head n).boundCount = .ok (f.countChildren n (.qualifier .bvar))) ∧
  ((f.head n).form = .piecewise →
    (f.head n).caseCount = .ok (f.countChildren n (.qualifier .piece)) ∧
    (f.head n).hasFallback = .ok (decide (∃ c ∈ f.children n, f.kind c = .qualifier .otherwise)))

end Forest

/-- Whether a node turns into one of a kind, or from one of that kind into another, when it takes the
second of these kinds in place of the first. -/
def Turns (counted before after : Kind) : Prop := ¬ (before = counted ↔ after = counted)

namespace Forest

/-- Whether the counts of a node would no longer be right if a child took another kind. -/
def MiscountsAt (f : Forest) (p n : NodeId) (kind : Kind) : Prop :=
  f.parent n = some p ∧
    ((f.head p).form = .lambda ∧ Turns (.qualifier .bvar) (f.kind n) kind ∨
      (f.head p).form = .piecewise ∧
        (Turns (.qualifier .piece) (f.kind n) kind ∨
          Turns (.qualifier .otherwise) (f.kind n) kind ∧
            ∀ c ∈ f.children p, c ≠ n → f.kind c ≠ .qualifier .otherwise))

/-- Whether an action gives a child another kind that makes the counts of its parent wrong. -/
def Miscounts (f : Forest) : Action → Prop
  | .setKind n kind => (f.head n).form.allows kind ∧ ∃ p, f.MiscountsAt p n kind
  | _ => False

/-! ### Counting -/

theorem exists_kind_iff (φ : NodeId → Kind) (l : List NodeId) (kind : Kind) :
    (∃ c ∈ l, φ c = kind) ↔ (l.map φ).count kind ≠ 0 := by
  rw [Nat.ne_zero_iff_zero_lt, List.count_pos_iff, List.mem_map]

/-- The counts are right if counting again would change nothing. -/
theorem counted_iff : f.Counted n ↔
    (f.head n).payload.recounted ((f.children n).map f.kind) = (f.head n).payload := by
  unfold Counted Head.form Head.boundCount Head.caseCount Head.hasFallback
  simp only [countChildren_eq_count, exists_kind_iff]
  cases (f.head n).payload with
  | lambda bound => simp [Payload.form, Payload.recounted, eq_comm]
  | piecewise cases fallback =>
    simp only [Payload.form, Payload.recounted, reduceCtorEq, false_implies, true_and, true_implies,
      Except.ok.injEq, Payload.piecewise.injEq]
    rw [eq_comm, eq_comm (a := fallback)]
    cases fallback <;> simp
  | _ => simp [Payload.form, Payload.recounted]

theorem counted_of_same (hhead : g.head p = f.head p) (hchildren : g.children p = f.children p)
    (hkind : ∀ c ∈ f.children p, g.kind c = f.kind c) (h : f.Counted p) : g.Counted p := by
  rw [counted_iff] at *
  rw [hhead, hchildren, List.map_congr_left hkind]
  exact h

/-- What is linked or let go is counted. -/
theorem Rehung.counted {l : List NodeId} {q : Option NodeId} (hr : f.Rehung g m l c q)
    (h : p ≠ m → f.Counted p) : g.Counted p := by
  by_cases hp : p = m
  · rw [counted_iff, hr.head, hr.children, if_pos hp, if_pos hp, Head.payload_recounted,
      Payload.recounted_recounted, List.map_congr_left fun n _ => hr.kind n]
  · refine counted_of_same ?_ ?_ (fun n _ => hr.kind n) (h hp)
    · rw [hr.head, if_neg hp]
    · rw [hr.children, if_neg hp]

/-! ### Steps -/

theorem Step.counted_of_has (hf : f.Linked) (hs : f.Step S g) (hp : f.Has p) (h : f.Counted p) :
    g.Counted p := by
  have hkind (c : NodeId) (hc : c ∈ f.children p) : g.kind c = f.kind c := hs.kind (hf.has_of_mem hc)
  have hne := ne_next_of_has hp
  cases hs with
  | plant =>
    refine counted_of_same ?_ children_plant hkind h
    rw [head_plant, if_neg hne]
  | graft =>
    refine counted_of_same ?_ ?_ hkind h
    · rw [head_graft, if_neg hne]
    · rw [children_graft, if_neg hne]
  | link hq => exact (rehung_link hq _ _).counted fun _ => h
  | unlink _ hi => exact (rehung_unlink (has_of_getElem?_children hi) _ _).counted fun _ => h
  | @free n _ _ _ =>
    by_cases hpn : p = n
    · rw [counted_iff, head_discard, children_discard, if_pos hpn, if_pos hpn]
      simp
    · refine counted_of_same ?_ ?_ hkind h
      · rw [head_discard, if_neg hpn]
      · rw [children_discard, if_neg hpn]

theorem Steps.counted_of_has (hf : f.Linked) (hs : f.Steps S g) (hp : f.Has p) (h : f.Counted p) :
    g.Counted p := by
  induction hs with
  | refl => exact h
  | tail hs' hs ih => exact hs.counted_of_has (hf.steps hs') (Steps.has hs' hp) ih

end Forest

theorem Payload.recounted_blank (form : Form) (kind : Kind) :
    (blank form kind).recounted [] = blank form kind := by
  unfold blank
  split <;> rfl

/-- What is planted counts no children. -/
theorem Seed.recounted_head {seed : Seed} {head : Head} (h : seed.head? = .ok head) :
    head.payload.recounted [] = head.payload := by
  cases seed with
  | ofKind kind =>
    cases h
    exact Payload.recounted_blank _ _
  | ofForm form kind =>
    simp only [head?] at h
    split_ifs at h
    cases h
    exact Payload.recounted_blank _ _
  | _ =>
    cases h
    rfl

namespace Forest

theorem kind_of_mirrors {l copies : List NodeId} (h : List.Forall₂ f.Mirrors copies l) :
    copies.map f.kind = l.map f.kind := by
  induction h with
  | nil => rfl
  | @cons c n _ _ hc _ ih =>
    rw [List.map_cons, List.map_cons, ih]
    unfold Mirrors at hc
    split_ifs at hc with hn
    · rw [hc, hn]
    · rw [kind, hc.2.2.2.1, kind]

/-- A node that is made in a step counts its children right if the node that it may copy does. -/
theorem Step.counted (hf : f.Linked) (hs : f.Step S g) (h : ∀ n, f.Counted n) (n : NodeId) :
    g.Counted n := by
  by_cases hn : f.Has n
  · exact hs.counted_of_has hf hn (h n)
  have hold : f.head n = .ofKind .unknown := by
    rw [Forest.head, get_of_not_has f hn]
    rfl
  have hnone : f.children n = [] := by
    rw [children, get_of_not_has f hn]
    rfl
  cases hs with
  | plant hseed =>
    rw [counted_iff, head_plant, children_plant, hnone]
    split_ifs
    · exact Seed.recounted_head hseed
    · rw [hold]
      rfl
  | @graft m copies _ hcopies =>
    rw [counted_iff, head_graft, children_graft]
    split_ifs
    · have hm := counted_iff.1 (h m)
      have hkind : copies.map (f.graft m copies).kind = copies.map f.kind := by
        refine List.map_congr_left fun c hc => ?_
        rw [Forest.kind, head_graft, if_neg, Forest.kind]
        by_cases hph : c = .placeholder
        · exact hph ▸ ne_next_of_has hf.has_placeholder
        · exact ne_next_of_has (free_of_mirrors hcopies c hc hph).1
      rw [hkind, kind_of_mirrors hcopies, hm]
    · rw [hold, hnone]
      rfl
  | link hp => exact (rehung_link hp _ _).counted fun _ => h n
  | unlink _ hi => exact (rehung_unlink (has_of_getElem?_children hi) _ _).counted fun _ => h n
  | free =>
    rw [counted_iff, head_discard, children_discard, hnone, hold]
    split_ifs with hnm
    · rw [← hnm, hold]
      rfl
    · rfl

theorem Steps.counted (hf : f.Linked) (hs : f.Steps S g) (h : ∀ n, f.Counted n) (n : NodeId) :
    g.Counted n := by
  induction hs generalizing n with
  | refl => exact h n
  | tail hs' hs ih => exact hs.counted (hf.steps hs') ih n

/-! ### Other kinds -/

/-- How a count changes when all occurrences of a node in a list take another kind. -/
theorem count_map_ite (φ : NodeId → Kind) (l : List NodeId) (n : NodeId) (kind counted : Kind) :
    (l.map fun c => if c = n then kind else φ c).count counted
        + (if φ n = counted then l.count n else 0)
      = (l.map φ).count counted + if kind = counted then l.count n else 0 := by
  induction l with
  | nil => simp
  | cons c l ih =>
    simp only [List.map_cons, List.count_cons, beq_iff_eq]
    by_cases hc : c = n
    · subst hc
      simp only [if_true]
      split_ifs at ih ⊢ <;> omega
    · simp only [if_neg hc]
      split_ifs at ih ⊢ <;> omega

theorem counted_of_form (hl : (f.head n).form ≠ .lambda) (hp : (f.head n).form ≠ .piecewise) :
    f.Counted n :=
  ⟨fun h => absurd h hl, fun h => absurd h hp⟩

theorem Rewritten.counted_iff_of_kind {h : Head} (hr : f.Rewritten g n h)
    (hcounts : h.payload = (f.head n).payload ∨ h.form ≠ .lambda ∧ h.form ≠ .piecewise)
    (hkind : ∀ c ∈ f.children p, g.kind c = f.kind c) : g.Counted p ↔ f.Counted p := by
  have hsame (hpayload : (g.head p).payload = (f.head p).payload) : g.Counted p ↔ f.Counted p := by
    rw [counted_iff, counted_iff, hpayload, hr.children, List.map_congr_left hkind]
  by_cases hp : p = n
  · rcases hcounts with hpayload | ⟨hl, hpw⟩
    · refine hsame ?_
      rw [hr.head, if_pos hp, hpayload, hp]
    · subst hp
      refine iff_of_true (counted_of_form ?_ ?_) (counted_of_form ?_ ?_)
      · rwa [hr.head, if_pos rfl]
      · rwa [hr.head, if_pos rfl]
      · rwa [← hr.form]
      · rwa [← hr.form]
  · refine hsame ?_
    rw [hr.head, if_neg hp]

/-- The number of children of a kind changes if the one that takes another kind turns. -/
theorem count_ne_iff {φ : NodeId → Kind} {l : List NodeId} (hn : l.count n = 1)
    (kind counted : Kind) :
    (l.map fun c => if c = n then kind else φ c).count counted ≠ (l.map φ).count counted ↔
      Turns counted (φ n) kind := by
  have h := count_map_ite φ l n kind counted
  rw [hn] at h
  split_ifs at h with hb ha ha
  · exact iff_of_false (by omega) fun ht => ht (iff_of_true hb ha)
  · exact iff_of_true (by omega) fun he => ha (he.1 hb)
  · exact iff_of_true (by omega) fun he => hb (he.2 ha)
  · exact iff_of_false (by omega) fun ht => ht (iff_of_false hb ha)

/-- Whether there is a child of a kind changes if it turns and no other is of that kind. -/
theorem exists_ne_iff {φ : NodeId → Kind} {l : List NodeId} (hn : n ∈ l) (kind counted : Kind) :
    ((∃ c ∈ l, (if c = n then kind else φ c) = counted) ↔ ∃ c ∈ l, φ c = counted) ↔
      ¬ (Turns counted (φ n) kind ∧ ∀ c ∈ l, c ≠ n → φ c ≠ counted) := by
  by_cases hother : ∀ c ∈ l, c ≠ n → φ c ≠ counted
  · have hafter : (∃ c ∈ l, (if c = n then kind else φ c) = counted) ↔ kind = counted := by
      refine ⟨fun ⟨c, hc, h⟩ => ?_, fun h => ⟨n, hn, by rw [if_pos rfl, h]⟩⟩
      split_ifs at h with hcn
      · exact h
      · exact absurd h (hother c hc hcn)
    have hbefore : (∃ c ∈ l, φ c = counted) ↔ φ n = counted := by
      refine ⟨fun ⟨c, hc, h⟩ => ?_, fun h => ⟨n, hn, h⟩⟩
      by_cases hcn : c = n
      · exact hcn ▸ h
      · exact absurd h (hother c hc hcn)
    rw [hafter, hbefore]
    exact ⟨fun h h' => h'.1 h.symm, fun h => (not_not.1 fun h' => h ⟨h', hother⟩).symm⟩
  · obtain ⟨c, hc, hcn, h⟩ : ∃ c ∈ l, c ≠ n ∧ φ c = counted := by simpa using hother
    refine iff_of_true (iff_of_true ⟨c, hc, ?_⟩ ⟨c, hc, h⟩) fun h' => h'.2 c hc hcn h
    rw [if_neg hcn, h]

theorem bne_zero_inj (a b : Nat) : (a != 0) = (b != 0) ↔ (a ≠ 0 ↔ b ≠ 0) := by
  cases a <;> cases b <;> simp

/-- The counts of the parent are right again just if the number of no kind that it counts changes. -/
theorem Rewritten.counted_iff_of_parent (hf : f.Linked) {kind : Kind}
    (hr : f.Rewritten g n { f.head n with kind := kind }) (hp : f.Counted p)
    (hn : f.parent n = some p) : g.Counted p ↔ ¬ f.MiscountsAt p n kind := by
  have hmem := hf.mem_of_parent hn
  have hone : (f.children p).count n = 1 :=
    Nat.le_antisymm (hf.once p (hf.ne_placeholder_of_parent hn)) (List.count_pos_iff.2 hmem)
  have hpayload : (g.head p).payload = (f.head p).payload := by
    rw [hr.head]
    split_ifs with hpn
    · rw [hpn]
    · rfl
  have hkinds : (f.children p).map g.kind
      = (f.children p).map fun c => if c = n then kind else f.kind c :=
    List.map_congr_left fun c _ => hr.kind c
  have hbefore := Forest.counted_iff.1 hp
  have hcount (counted : Kind) := count_ne_iff (φ := f.kind) hone kind counted
  have hexists (counted : Kind) := exists_ne_iff (φ := f.kind) hmem kind counted
  simp only [exists_kind_iff] at hexists
  rw [Forest.counted_iff, hpayload, hr.children, hkinds, MiscountsAt, Head.form]
  cases hpay : (f.head p).payload with
  | lambda bound =>
    rw [hpay] at hbefore
    simp only [Payload.recounted, Payload.lambda.injEq] at hbefore ⊢
    simp only [hn, Payload.form, true_and, reduceCtorEq, false_and, or_false]
    rw [← hcount, not_not, hbefore]
  | piecewise cases fallback =>
    rw [hpay] at hbefore
    simp only [Payload.recounted, Payload.piecewise.injEq] at hbefore ⊢
    simp only [hn, Payload.form, true_and, reduceCtorEq, false_and, false_or]
    rw [not_or, ← hcount, not_not, ← hexists, hbefore.1, ← hbefore.2, bne_zero_inj]
  | _ => simp [Payload.recounted, Payload.form]

/-- To a node that is not its parent it makes no difference of what kind a node is. -/
theorem Rewritten.counted_of_parent_ne (hf : f.Linked) {kind : Kind}
    (hr : f.Rewritten g n { f.head n with kind := kind }) (hp : f.Counted p)
    (hn : f.parent n ≠ some p) : g.Counted p := by
  refine (hr.counted_iff_of_kind (.inl rfl) fun c hc => ?_).2 hp
  rw [hr.kind]
  split_ifs with hcn
  · by_cases hph : c = .placeholder
    · -- the placeholder, which may be a child of many nodes, keeps its kind
      have hhead : g.head c = f.head c := by rw [Forest.head, hph, hr.placeholder, Forest.head]
      rw [hr.head, if_pos hcn] at hhead
      rw [Forest.kind, ← hhead]
    · rw [hcn] at hph hc
      exact absurd ((hf.parent_iff hph).2 hc) hn
  · rfl

theorem Rewritten.counted_iff (hf : f.Linked) {kind : Kind}
    (hr : f.Rewritten g n { f.head n with kind := kind }) (hp : f.Counted p) :
    g.Counted p ↔ ¬ f.MiscountsAt p n kind := by
  by_cases hn : f.parent n = some p
  · exact hr.counted_iff_of_parent hf hp hn
  · exact iff_of_true (hr.counted_of_parent_ne hf hp hn) fun h => hn h.1

/-! ### Actions -/

/-- Only an action that miscounts a node makes its counts wrong. -/
theorem Effect.counted_of_has (hf : f.Linked) (he : f.Effect action g) (hp : f.Has p)
    (h : f.Counted p) (ha : ∀ n kind, action = .setKind n kind → ¬ f.MiscountsAt p n kind) :
    g.Counted p := by
  cases he with
  | moved hs => exact hs.counted_of_has hf hp h
  | alike hg => exact counted_of_same (hg.head p) (hg.children p) (fun c _ => hg.kind c) h
  | rewritten hr hkind hcounts =>
    exact (hr.counted_iff_of_kind hcounts fun c _ => hr.kind_of_same hkind c).2 h
  | rekinded _ hr => exact (hr.counted_iff hf h).2 (ha _ _ rfl)

theorem Effect.counted (hf : f.Linked) (he : f.Effect action g) (h : ∀ n, f.Counted n)
    (ha : ¬ f.Miscounts action) (n : NodeId) : g.Counted n := by
  cases he with
  | moved hs => exact hs.counted hf h n
  | alike hg => exact counted_of_same (hg.head n) (hg.children n) (fun c _ => hg.kind c) (h n)
  | rewritten hr hkind hcounts =>
    exact (hr.counted_iff_of_kind hcounts fun c _ => hr.kind_of_same hkind c).2 (h n)
  | rekinded hallows hr => exact (hr.counted_iff hf (h n)).2 fun hm => ha ⟨hallows, n, hm⟩

/-- While all counts are right, an action leaves them so unless it miscounts. -/
theorem counted_after_iff (hf : f.Linked) (ha : f.Admits action) (h : ∀ n, f.Counted n) :
    (∀ n, (f.after action).Counted n) ↔ ¬ f.Miscounts action := by
  refine ⟨fun hg hm => ?_, fun hm n => (effect hf ha).counted hf h hm n⟩
  cases action with
  | setKind n kind =>
    obtain ⟨hallows, p, hm⟩ := hm
    have hr := rewritten_setKind hf (ha n List.mem_cons_self) hallows
    exact (hr.counted_iff hf (h p)).1 (hg p) hm
  | _ => exact hm

theorem counted_start (n : NodeId) : start.Counted n := by
  obtain ⟨i⟩ := n
  refine counted_of_form ?_ ?_ <;> cases i <;> exact nofun

/-- Along a run every `lambda` and every `piecewise` always counts its children rightly, unless some
action of the run gives a child another kind that its parent does not get to know of. -/
theorem counted_iff_not_miscounts (ha : start.Along Admits actions) :
    start.Throughout (fun f => ∀ n, f.Counted n) actions ↔
      start.Along (fun f action => ¬ f.Miscounts action) actions :=
  throughout_iff_along (fun hf ha h => counted_after_iff hf.linked ha h) id .start ha counted_start

theorem counted_of_detach :
    let actions := oneParameter ++ [.detach ⟨3⟩, .setKind ⟨3⟩ (.qualifier .degree)]
    start.Along Admits actions ∧ start.Throughout (fun f => ∀ n, f.Counted n) actions := by
  have ha : start.Along Admits
      (oneParameter ++ [.detach ⟨3⟩, .setKind ⟨3⟩ (.qualifier .degree)]) := by decide
  refine ⟨ha, (counted_iff_not_miscounts ha).2 ⟨id, id, id, id, fun ⟨_, p, hp⟩ => ?_, trivial⟩⟩
  have hfree : (start.run (oneParameter ++ [.detach ⟨3⟩])).parent ⟨3⟩ = none := by decide
  exact absurd (hfree.symm.trans hp.1) nofun

/-- A bound variable that is turned into a degree is still counted as one. -/
theorem miscounts_degree :
    let actions := oneParameter ++ [.setKind ⟨3⟩ (.qualifier .degree)]
    start.Along Admits actions ∧ ((start.run actions).head ⟨1⟩).boundCount = .ok 1 ∧
      (start.run actions).countChildren ⟨1⟩ (.qualifier .bvar) = 0 := by
  decide

end Forest

end MathTree

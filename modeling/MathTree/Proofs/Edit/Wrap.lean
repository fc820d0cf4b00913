import MathTree.Proofs.Edit.MovesTo
import MathTree.Proofs.Forest.Journal

/-!
# Wrapping

Some edits put the nodes that they are given into a fresh qualifier before they link that in.
`Forest.Wrapped` is what is known of the forest in between.  From it follows that the qualifier can
be filled (`run_qualify`, `run_piece`), and that a node with any number of children that could adopt
the contents before can take in the qualifier now (`Wrapped.insertFault?_eq_none_iff`).
-/

namespace MathTree

open Forest

variable {f g : Forest} {n p c v w : NodeId} {i : Nat} {l : List NodeId} {q : Qualifier}

namespace Forest

/-- A fresh qualifier, which nothing holds, now holds some of the nodes; no other node got a child or
a parent. -/
structure Wrapped (f g : Forest) (w : NodeId) (q : Qualifier) (l : List NodeId) : Prop where
  steps : f.Steps (fun _ => True) g
  fresh : ¬ f.Has w
  has : g.Has w
  head : g.head w = .blank .qualifier (.qualifier q)
  free : g.parent w = none
  parent : ∀ {c p : NodeId}, g.parent c = some p → f.parent c = some p ∨ p = w
  contents : ∀ {c : NodeId}, c ∈ g.children w → c ∈ l
  length : (g.children w).length ≤ l.length

theorem Wrapped.ne (h : f.Wrapped g w q l) (hn : f.Has n) : n ≠ w := by
  rintro rfl
  exact h.fresh hn

theorem Wrapped.linked (h : f.Wrapped g w q l) (hf : f.Linked) : g.Linked := hf.steps h.steps

theorem Wrapped.isLeaf (h : f.Wrapped g w q l) : (g.head w).isLeaf = false := by
  rw [h.head]
  rfl

theorem seed_head_qualifier (q : Qualifier) :
    (Seed.ofForm .qualifier (.qualifier q)).head? = .ok (.blank .qualifier (.qualifier q)) := by
  cases q <;> rfl

theorem wrapped_plant (f : Forest) (q : Qualifier) :
    f.Wrapped (f.grow { head := .blank .qualifier (.qualifier q) }).2 f.next q [] where
  steps := .single (.plant (seed_head_qualifier q))
  fresh := f.not_has_next
  has := has_plant.2 (.inr rfl)
  head := by rw [head_plant, if_pos rfl]
  free := by
    rw [parent_plant, Forest.parent, get_next]
    rfl
  parent hp := .inl (by rwa [parent_plant] at hp)
  contents hc := by
    rw [children_plant, children, get_next] at hc
    exact hc
  length := by
    rw [children_plant, children, get_next]
    exact Nat.le_refl 0

/-- Another node finds room in the qualifier. -/
theorem Wrapped.insertFault?_self (h : f.Wrapped g w q l) (hc : f.Has c)
    (hroom : ∀ capacity, Form.capacity .qualifier (.qualifier q) = some capacity →
      l.length < capacity) :
    g.insertFault? w (g.roomTaken w c) c = none := by
  refine insertFault?_eq_none_iff.2 ⟨adoptFault?_eq_none_iff.2 ⟨h.isLeaf, ?_⟩, ?_, Nat.le_refl _⟩
  · rw [Linked.lineage_of_parent_none h.free, List.mem_singleton]
    exact h.ne hc
  · refine roomFault?_eq_none_iff.2 fun capacity hcapacity _ => ?_
    rw [h.head] at hcapacity
    have hl := h.length
    have := hroom capacity hcapacity
    unfold roomTaken
    omega

/-- Counting changes nothing about a qualifier. -/
theorem Rehung.head_qualifier {m : NodeId} {o : Option NodeId} (hr : f.Rehung g m l c o)
    (h : f.head w = .blank .qualifier (.qualifier q)) :
    g.head w = .blank .qualifier (.qualifier q) := by
  obtain ⟨kinds, hw | hw⟩ := hr.head_cases w
  · rw [hw, h]
  · rw [hw, h]
    rfl

theorem Wrapped.add (h : f.Wrapped g w q l) (hf : f.Linked) (hc : f.Has c)
    (hi : g.insertFault? w i c = none) : f.Wrapped ((g.detach c).link w i c) w q (c :: l) := by
  have hg := h.linked hf
  have hgc := h.steps.has hc
  have hr := rehung_link (has_detach (n := c).2 h.has) i c
  have hsteps := Edit.steps_insert hg.ready ⟨h.has, trivial⟩ ⟨hgc, trivial⟩ hi
  have hlen : i ≤ ((g.detach c).children w).length := by
    rw [hg.length_children_detach]
    exact (insertFault?_eq_none_iff.1 hi).2.2
  have hdetach := hg.children_detach_sublist (n := c) (m := w)
  refine ⟨h.steps.trans hsteps, h.fresh, hsteps.has h.has, ?_, ?_, fun {d p} hd => ?_,
    fun {d} hd => ?_, ?_⟩
  · refine hr.head_qualifier ?_
    cases hp : g.parent c with
    | none => rw [detach_of_parent_none hp, h.head]
    | some p => exact (hg.rehung_detach hp).head_qualifier h.head
  · rw [hr.parent, if_neg fun e => h.ne hc e.1.symm, hg.parent_detach, if_neg (h.ne hc).symm, h.free]
  · rw [hr.parent, hg.parent_detach] at hd
    split_ifs at hd
    · exact .inr (Option.some.inj hd).symm
    · exact h.parent hd
  · rw [hr.children, if_pos rfl] at hd
    rcases (List.mem_insertIdx hlen).1 hd with rfl | hd
    · exact List.mem_cons_self
    · exact List.mem_cons_of_mem _ (h.contents (hdetach.subset hd))
  · rw [hr.children, if_pos rfl, List.length_insertIdx_of_le_length hlen, List.length_cons]
    exact Nat.succ_le_succ (Nat.le_trans hdetach.length_le h.length)

/-! ### Taking in the qualifier -/

/-- What stands above a node in the wrapped forest stood above it before, save the qualifier. -/
theorem Wrapped.under (h : f.Wrapped g w q l) (hc : c ≠ w) (hu : g.Under n c) : f.Under n c := by
  induction hu using Relation.ReflTransGen.head_induction_on with
  | refl => exact .refl
  | @head n m hm hu ih =>
    rcases h.parent hm with hp | rfl
    · exact .head hp ih
    · -- nothing holds the qualifier, so the way up ends there
      obtain rfl | ⟨m', hm', -⟩ := Relation.ReflTransGen.cases_head hu
      · exact absurd rfl hc
      · rw [ChildOf, h.free] at hm'
        cases hm'

theorem Wrapped.not_under (h : f.Wrapped g w q l) (hf : f.Linked) (hp : f.Has p)
    (hl : ∀ c ∈ l, f.Has c ∧ c ∉ f.lineage p) : ¬ g.Under p w := by
  intro hu
  obtain rfl | ⟨c, hu, hc⟩ := Relation.ReflTransGen.cases_tail hu
  · exact h.fresh hp
  · have hcl := hl c (h.contents ((h.linked hf).mem_of_parent hc))
    exact hcl.2 (hf.mem_lineage_of_under hp (h.under (h.ne hcl.1) hu))

/-- What could be adopted before stands nowhere above. -/
theorem not_mem_lineage_of_adoptFault? (hv : f.Has v) (hav : f.adoptFault? p v = none) :
    ∀ c ∈ [v], f.Has c ∧ c ∉ f.lineage p := by
  intro c hc
  rw [List.mem_singleton.1 hc]
  exact ⟨hv, (adoptFault?_eq_none_iff.1 hav).2⟩

theorem Wrapped.adoptFault?_eq_none (h : f.Wrapped g w q l) (hf : f.Linked) (hp : f.Has p)
    (hleaf : (f.head p).isLeaf = false) (hl : ∀ c ∈ l, f.Has c ∧ c ∉ f.lineage p) :
    g.adoptFault? p w = none := by
  refine adoptFault?_eq_none_iff.2 ⟨?_, fun hw => ?_⟩
  · rw [Head.isLeaf, h.steps.form hp, ← Head.isLeaf, hleaf]
  · exact h.not_under hf hp hl (((h.linked hf).mem_lineage_iff (h.steps.has hp)).1 hw)

theorem Wrapped.roomTaken (h : f.Wrapped g w q l) (hf : f.Linked) (p : NodeId) :
    g.roomTaken p w = (g.children p).length :=
  (h.linked hf).roomTaken_of_free h.free

/-- A node without a capacity that could adopt the contents takes in the qualifier. -/
theorem Wrapped.insertFault?_eq_none_iff (h : f.Wrapped g w q l) (hf : f.Linked) (hp : f.Has p)
    (hform : (f.head p).form = .lambda ∨ (f.head p).form = .piecewise)
    (hl : ∀ c ∈ l, f.Has c ∧ c ∉ f.lineage p) :
    g.insertFault? p i w = none ↔ i ≤ (g.children p).length := by
  have hleaf : (f.head p).isLeaf = false := by
    rcases hform with hform | hform <;> rw [Head.isLeaf, hform] <;> rfl
  have hcapacity : (g.head p).capacity = none := by
    rw [← h.steps.form hp] at hform
    rcases hform with hform | hform <;> rw [Head.capacity, hform] <;> rfl
  have hroom : g.roomFault? p w = none :=
    roomFault?_eq_none_iff.2 fun k hk => by rw [hcapacity] at hk; cases hk
  rw [Forest.insertFault?_eq_none_iff, h.adoptFault?_eq_none hf hp hleaf hl, hroom, h.roomTaken hf]
  simp

/-! ### Filling the qualifier -/

/-- The forest in which a fresh qualifier holds a node. -/
def wrap (f : Forest) (q : Qualifier) (c : NodeId) : Forest :=
  ((f.grow { head := .blank .qualifier (.qualifier q) }).2.detach c).link f.next 0 c

theorem insertFault?_plant (hc : f.Has c) (q : Qualifier) :
    let g := (f.grow { head := .blank .qualifier (.qualifier q) }).2
    g.roomTaken f.next c = 0 ∧ g.insertFault? f.next 0 c = none := by
  intro g
  have h := wrapped_plant f q
  have hroom : g.roomTaken f.next c = 0 := by
    have hl : (g.children f.next).length ≤ 0 := h.length
    unfold Forest.roomTaken
    omega
  have hi := h.insertFault?_self hc fun capacity hcapacity => by
    cases q <;> cases hcapacity <;> decide
  rw [hroom] at hi
  exact ⟨hroom, hi⟩

theorem wrapped_wrap (hf : f.Linked) (hc : f.Has c) (q : Qualifier) :
    f.Wrapped (f.wrap q c) f.next q [c] :=
  (wrapped_plant f q).add hf hc (insertFault?_plant hc q).2

theorem children_wrap (hf : f.Linked) (hn : f.Has n) (q : Qualifier) : (f.wrap q c).children n
    = if f.parent c = some n then (f.children n).erase c else f.children n := by
  have h := wrapped_plant f q
  rw [wrap, (rehung_link (has_detach.2 h.has) 0 c).children,
    if_neg (ne_next_of_has hn), (h.linked hf).children_detach, parent_plant, children_plant]

theorem children_wrap_next (hf : f.Linked) (q : Qualifier) :
    (f.wrap q c).children f.next = [c] := by
  have h := wrapped_plant f q
  have hl := h.linked hf
  have hnil : (f.grow { head := .blank .qualifier (.qualifier q) }).2.children f.next = [] :=
    List.length_eq_zero_iff.1 (Nat.le_zero.1 h.length)
  have hdetach := hl.children_detach_sublist (n := c) (m := f.next)
  rw [hnil] at hdetach
  rw [wrap, (rehung_link (has_detach.2 h.has) 0 c).children, if_pos rfl,
    List.sublist_nil.1 hdetach]
  rfl

/-- The forest in which a fresh case holds a value and a condition. -/
def wrapPair (f : Forest) (v c : NodeId) : Forest :=
  ((f.wrap .piece v).detach c).link f.next ((f.wrap .piece v).roomTaken f.next c) c

theorem insertFault?_wrap_piece (hf : f.Linked) (hv : f.Has v) (hc : f.Has c) :
    (f.wrap .piece v).insertFault? f.next ((f.wrap .piece v).roomTaken f.next c) c = none := by
  refine (wrapped_wrap hf hv .piece).insertFault?_self hc fun capacity hcapacity => ?_
  cases hcapacity
  exact Nat.one_lt_two

theorem wrapped_wrapPair (hf : f.Linked) (hv : f.Has v) (hc : f.Has c) :
    f.Wrapped (f.wrapPair v c) f.next .piece [c, v] :=
  (wrapped_wrap hf hv .piece).add hf hc (insertFault?_wrap_piece hf hv hc)

end Forest

namespace Edit

theorem run_qualify (hc : f.Has c) (q : Qualifier) :
    (qualify (.qualifier q) c).run f = (.ok f.next, f.wrap q c) := by
  obtain ⟨hroom, hi⟩ := insertFault?_plant hc q
  have hgrow : (f.grow { head := .blank .qualifier (.qualifier q) }).1 = f.next := rfl
  simp only [qualify, plant, run_bind, run_lift, seed_head_qualifier, run_modifyGet, hgrow,
    run_append, hroom, run_insertAt, hi, run_pure, wrap]

theorem run_piece (hf : f.Linked) (hv : f.Has v) (hc : f.Has c) :
    (piece v c).run f = (.ok f.next, f.wrapPair v c) := by
  have hi := insertFault?_wrap_piece hf hv hc
  simp only [piece, run_bind, run_qualify hv, run_append, run_insertAt, hi, run_pure, wrapPair]

/-! ### Linking in the qualifier -/

theorem run_giveUp : (giveUp n).run f
    = (.ok (), if f.isKnown n ∨ n = .placeholder ∨ (f.parent n).isSome then f else f.discard n) := by
  simp only [giveUp, run_bind, run_get, run_ite, run_pure, run_drop]
  split_ifs <;> first | rfl | simp_all

theorem run_addBound (hv : f.Has v) : (addBound p v).run f = match (f.head p).boundCount with
    | .error fault => (.error fault, f)
    | .ok k =>
      if f.kind v = .qualifier .bvar then (insertAt p k v).run f
      else match f.adoptFault? p v with
        | some fault => (.error fault, f)
        | none => match (f.wrap .bvar v).insertFault? p k f.next with
          | some fault => (.error fault, ((giveUp f.next).run (f.wrap .bvar v)).2)
          | none => (.ok (), ((f.wrap .bvar v).detach f.next).link p k f.next) := by
  simp only [addBound, run_bind, run_get, run_lift]
  cases (f.head p).boundCount with
  | error fault => rfl
  | ok k =>
    simp only [run_bind, run_ite, run_checkAdopt]
    split_ifs
    · rfl
    · cases f.adoptFault? p v with
      | some fault => rfl
      | none =>
        simp only [run_bind, run_qualify hv, run_tryCatch, run_insertAt]
        cases (f.wrap .bvar v).insertFault? p k f.next with
        | none => rfl
        | some fault =>
          simp only [run_giveUp, run_throw]

theorem form_of_caseCount {k : Nat} (hk : (f.head p).caseCount = .ok k) :
    (f.head p).form = .piecewise := by
  unfold Head.caseCount at hk
  split at hk
  · rename_i hpayload
    rw [Head.form, hpayload]
    rfl
  · cases hk

theorem isLeaf_of_caseCount {k : Nat} (hk : (f.head p).caseCount = .ok k) :
    (f.head p).isLeaf = false := by
  rw [Head.isLeaf, form_of_caseCount hk]
  rfl

/-- Links in a case before the fallback, or behind all children if there is none. -/
def placeCase (p w : NodeId) : Edit Unit := do
  match (← get).fallbackPosition p with
  | some position => insertAt p position w
  | none => append p w

/-- Links in a fallback in the place of another, or behind all children if there is none. -/
def placeFallback (p w : NodeId) : Edit Unit := do
  match (← get).fallbackPosition p with
  | some position => discard <| replaceAt p position w
  | none => append p w

/-- Before a case is made, its parent and both its contents are checked. -/
theorem run_addCase_eq : (addCase p v c).run f = match (f.head p).caseCount with
    | .error fault => (.error fault, f)
    | .ok _ => match f.adoptFault? p v with
      | some fault => (.error fault, f)
      | none => match f.adoptFault? p c with
        | some fault => (.error fault, f)
        | none => (piece v c >>= placeCase p).run f := by
  simp only [addCase, run_bind, run_get, run_discard, run_lift]
  cases (f.head p).caseCount with
  | error fault => rfl
  | ok k =>
    simp only [Except.map, run_checkAdopt]
    cases f.adoptFault? p v with
    | some fault => rfl
    | none => cases f.adoptFault? p c <;> rfl

/-- Before a fallback is made, its parent and its content are checked. -/
theorem run_setFallback_eq : (setFallback p v).run f = match (f.head p).caseCount with
    | .error fault => (.error fault, f)
    | .ok _ => match f.adoptFault? p v with
      | some fault => (.error fault, f)
      | none => (qualify (.qualifier .otherwise) v >>= placeFallback p).run f := by
  simp only [setFallback, run_bind, run_get, run_discard, run_lift]
  cases (f.head p).caseCount with
  | error fault => rfl
  | ok k =>
    simp only [Except.map, run_checkAdopt]
    cases f.adoptFault? p v <;> rfl

/-- A case that is made of nodes that may stand below the `piecewise` finds its place. -/
theorem run_addCase (hf : f.Linked) (hp : f.Has p) (hv : f.Has v) (hc : f.Has c) {k : Nat}
    (hk : (f.head p).caseCount = .ok k) (hav : f.adoptFault? p v = none)
    (hac : f.adoptFault? p c = none) :
    let g := f.wrapPair v c
    (addCase p v c).run f
      = (.ok (), g.link p ((g.fallbackPosition p).getD (g.children p).length) f.next) := by
  intro g
  have hg := wrapped_wrapPair hf hv hc
  have hl : ∀ d ∈ [c, v], f.Has d ∧ d ∉ f.lineage p := by
    intro d hd
    rcases List.mem_cons.1 hd with rfl | hd
    · exact ⟨hc, (adoptFault?_eq_none_iff.1 hac).2⟩
    · exact not_mem_lineage_of_adoptFault? hv hav d hd
  have hiff (i : Nat) := hg.insertFault?_eq_none_iff (i := i) hf hp (.inr (form_of_caseCount hk)) hl
  rw [run_addCase_eq, hk, hav, hac]
  simp only [run_bind, run_piece hf hv hc, placeCase, run_get]
  cases hi : (f.wrapPair v c).fallbackPosition p with
  | none =>
    simp only [run_append, hg.roomTaken hf, run_insertAt, (hiff _).2 (Nat.le_refl _), g,
      Option.getD_none, detach_of_parent_none hg.free]
  | some i =>
    have hlt := (List.findIdx?_eq_some_iff_getElem.1 hi).1
    simp only [run_insertAt, (hiff i).2 (Nat.le_of_lt hlt), g, Option.getD_some,
      detach_of_parent_none hg.free]

/-- A fallback around a node that may stand below the `piecewise` takes the place of the one that is
there, or goes behind all children. -/
theorem run_setFallback (hf : f.Linked) (hp : f.Has p) (hv : f.Has v) {k : Nat}
    (hk : (f.head p).caseCount = .ok k) (hav : f.adoptFault? p v = none) :
    let g := f.wrap .otherwise v
    (g.fallbackPosition p = none ∧
        (setFallback p v).run f = (.ok (), g.link p (g.children p).length f.next)) ∨
      ∃ i old, g.fallbackPosition p = some i ∧ (g.children p)[i]? = some old ∧
        (setFallback p v).run f = (.ok (), (g.unlink p i old).link p i f.next) := by
  intro g
  have hg := wrapped_wrap hf hv .otherwise
  have hl := not_mem_lineage_of_adoptFault? hv hav
  have hform := form_of_caseCount hk
  rw [run_setFallback_eq, hk, hav]
  simp only [run_bind, run_qualify hv, placeFallback, run_get]
  cases hi : (f.wrap .otherwise v).fallbackPosition p with
  | none =>
    have hiff := hg.insertFault?_eq_none_iff (i := ((f.wrap .otherwise v).children p).length) hf hp
      (.inr hform) hl
    refine .inl ⟨rfl, ?_⟩
    simp only [run_append, hg.roomTaken hf, run_insertAt, hiff.2 (Nat.le_refl _), g,
      detach_of_parent_none hg.free]
  | some i =>
    have hlt := (List.findIdx?_eq_some_iff_getElem.1 hi).1
    have hcapacity : ((f.wrap .otherwise v).head p).capacity = none := by
      rw [Head.capacity, hg.steps.form hp, hform]
      rfl
    obtain ⟨old, hold, hat⟩ := childAt_of_lt (childCount_of_capacity hcapacity ▸ hlt)
    have hnot : (f.wrap .otherwise v).positionOf p f.next = none := by
      refine List.idxOf?_eq_none_iff.2 fun hm => ?_
      have hparent := ((hg.linked hf).parent_iff hf.next_ne_placeholder).2 hm
      rw [hg.free] at hparent
      cases hparent
    refine .inr ⟨i, old, rfl, hold, ?_⟩
    simp [run_discard, run_replaceAt (hg.linked hf),
      hg.adoptFault?_eq_none hf hp (isLeaf_of_caseCount hk) hl, hat, hnot, slot,
      detach_of_parent_none hg.free, g, Except.map]

end Edit

/-! ### Adding a bound variable as moves -/

namespace Forest

variable {S : NodeId → Prop}

theorem Ready.moves_wrap (hf : f.Ready S) (hc : f.Within S c) (q : Qualifier) :
    f.Moves S (f.wrap q c) := by
  have hplant : f.Moves S (f.grow { head := .blank .qualifier (.qualifier q) }).2 :=
    .single (.plant (seed_head_qualifier q))
  have hnext : (f.grow { head := .blank .qualifier (.qualifier q) }).2.Within S f.next :=
    ⟨has_plant.2 (.inr rfl), hf.region.fresh f.not_has_next⟩
  exact hplant.trans (.single (.insert hnext (hc.moves hplant) (insertFault?_plant hc.1 q).2))

/-- Who hears of what a fresh qualifier holds has been told of the qualifier, and nobody hears of the
qualifier itself. -/
theorem unheard_wrap (hf : f.Linked) (hc : f.Has c) (q : Qualifier) :
    (f.wrap q c).listeners f.next = [] ∧
      (¬ (f.wrap q c).isKnown f.next → (f.wrap q c).listeners c = []) := by
  have hplant := wrapped_plant f q
  have hl : (f.wrap q c).Linked := (wrapped_wrap hf hc q).linked hf
  have hhas : ((f.grow { head := .blank .qualifier (.qualifier q) }).2.detach c).Has f.next :=
    has_detach.2 hplant.has
  have hnobody : ((f.grow { head := .blank .qualifier (.qualifier q) }).2.detach c).listeners f.next
      = [] := by
    rw [listeners_detach, listeners_plant, listeners_of_not_has f.not_has_next]
  refine ⟨List.eq_nil_iff_forall_not_mem.2 fun l hm => ?_, fun hknown =>
    List.eq_nil_iff_forall_not_mem.2 fun l hm => ?_⟩
  · have hm := (hl.mem_listeners_link hhas (has_detach.2 (hplant.steps.has hc))).1 hm
    rw [hnobody] at hm
    simp at hm
  · by_cases hne : c = .placeholder
    · rw [(congrArg (f.wrap q c).listeners hne).trans hl.listeners_placeholder] at hm
      cases hm
    · exact hknown (isKnown_link hne hm)

end Forest

namespace Edit

theorem movesTo_addBound {S : NodeId → Prop} (hf : f.Ready S) (hp : f.Within S p)
    (hv : f.Within S v) : (addBound p v).MovesTo S f anything := by
  unfold MovesTo
  rw [run_addBound hv.1]
  cases hk : (f.head p).boundCount with
  | error fault => exact ⟨.refl, fun _ _ => trivial⟩
  | ok k =>
    dsimp only
    split_ifs
    · exact movesTo_insertAt hp hv
    · cases f.adoptFault? p v with
      | some fault => exact ⟨.refl, fun _ _ => trivial⟩
      | none =>
        have hw := wrapped_wrap hf.linked hv.1 .bvar
        have hm := hf.moves_wrap hv .bvar
        have hnext : S f.next := hf.region.fresh f.not_has_next
        cases hi : (f.wrap .bvar v).insertFault? p k f.next with
        | none => exact ⟨hm.trans (.single (.insert (hp.moves hm) ⟨hw.has, hnext⟩ hi)),
            fun _ _ => trivial⟩
        | some fault =>
          refine ⟨?_, fun _ _ => trivial⟩
          rw [run_giveUp]
          dsimp only
          split_ifs with hkeep
          · exact hm
          · -- the qualifier goes unless someone has been told of it
            obtain ⟨hknown, hne, -⟩ := not_or.1 hkeep |>.imp_right not_or.1
            have hun := unheard_wrap hf.linked hv.1 .bvar
            refine hm.trans (.single (.free hnext hne hw.free hun.1 fun c hc => ?_))
            rw [List.mem_singleton.1 (hw.contents hc)]
            exact hun.2 hknown

end Edit

end MathTree

import MathTree.Proofs.Action.Links

/-!
# Listeners of whole subtrees

No node ever lists a listener twice (`Reachable.nodup_listeners`).  As long as listeners are only taken
off nodes without a parent, whoever hears of a node hears of all that stands below it
(`wellHeard_of_unhearsTop`): a subtree that is linked in takes over the listeners of its parent, one that
is let go keeps those that it has, and whole subtrees are registered and unregistered.
-/

namespace MathTree

open Forest

variable {S : NodeId → Prop} {f g : Forest} {m n p c : NodeId} {l x : ListenerId} {action : Action}
  {actions : List Action}

namespace Forest

/-! ### Listeners after an action -/

theorem Step.nodup_listeners (hs : f.Step S g) (h : ∀ n, (f.listeners n).Nodup) (n : NodeId) :
    (g.listeners n).Nodup := by
  cases hs with
  | plant =>
    rw [listeners_plant]
    exact h n
  | graft =>
    rw [listeners_graft]
    exact h n
  | link => exact nodup_listeners_link (h n)
  | unlink =>
    rw [listeners_unlink]
    exact h n
  | free =>
    rw [listeners_discard]
    split_ifs
    · exact List.nodup_nil
    · exact h n

theorem Steps.nodup_listeners (hs : f.Steps S g) (h : ∀ n, (f.listeners n).Nodup) (n : NodeId) :
    (g.listeners n).Nodup := by
  induction hs generalizing n with
  | refl => exact h n
  | tail _ hs ih => exact hs.nodup_listeners ih n

/-- The listeners of a node change when nodes are moved, or by registering and unregistering. -/
theorem listeners_after (hm : ¬ action.Rearranges) (hdrop : ∀ n, action ≠ .drop n)
    (hhear : ∀ n x, action ≠ .hear n x) (hunhear : ∀ n x, action ≠ .unhear n x) :
    (f.after action).listeners m = f.listeners m :=
  (annotates_after hm hdrop).listeners hhear hunhear m

theorem nodup_listeners_after (hf : f.Linked) (ha : f.Admits action)
    (h : ∀ n, (f.listeners n).Nodup) (n : NodeId) : ((f.after action).listeners n).Nodup := by
  by_cases hm : action.Rearranges
  · exact ((moves_after hf ha hm).steps hf.ready).nodup_listeners h n
  · cases action with
    | drop m => exact steps_drop.nodup_listeners h n
    | hear m x => exact nodup_listeners_hearBelow (h n)
    | unhear m x => exact nodup_listeners_unhearBelow (h n)
    | _ =>
      rw [listeners_after hm nofun nofun nofun]
      exact h n

theorem Reachable.nodup_listeners (hf : f.Reachable) (n : NodeId) : (f.listeners n).Nodup := by
  induction hf generalizing n with
  | start =>
    obtain ⟨i⟩ := n
    cases i <;> exact List.nodup_nil
  | after hf ha ih => exact nodup_listeners_after hf.linked ha ih n

/-! ### Listeners spread -/

/-- Whether whoever hears of a node hears of its children. -/
def Spreads (f : Forest) : Prop :=
  ∀ p, ∀ c ∈ f.children p, c ≠ .placeholder → f.listeners p ⊆ f.listeners c

theorem Spreads.congr (h : f.Spreads) (hchildren : ∀ n, g.children n = f.children n)
    (hlisteners : ∀ n, g.listeners n = f.listeners n) : g.Spreads := by
  intro p c hc hne
  rw [hchildren] at hc
  rw [hlisteners, hlisteners]
  exact h p c hc hne

/-- Whoever hears of a node hears of all that stands below it. -/
theorem Spreads.under (h : f.Spreads) (hf : f.Linked) (hc : f.Under c p) (hne : c ≠ .placeholder) :
    f.listeners p ⊆ f.listeners c := by
  have hpass (q : NodeId) (hq : f.listeners p ⊆ f.listeners q) (c : NodeId)
      (hc : c ∈ f.children q) (hne : c ≠ .placeholder) : f.listeners p ⊆ f.listeners c :=
    fun _ hl => h q c hc hne (hq hl)
  exact hf.of_under hpass (List.Subset.refl _) hc hne

theorem Spreads.step (h : f.Spreads) (hf : f.Linked) (hs : f.Step S g) : g.Spreads := by
  have hg := hf.step hs
  cases hs with
  | plant => exact h.congr (fun _ => children_plant) fun _ => listeners_plant
  | @graft n copies =>
    intro p c hc hne
    rw [children_graft] at hc
    rw [listeners_graft, listeners_graft]
    split_ifs at hc with hp
    · -- nobody hears of the new node
      rw [hp, listeners_of_not_has f.not_has_next]
      exact List.nil_subset _
    · exact h p c hc hne
  | @link p c i hp hc _ _ _ _ _ hi =>
    intro q d hd hne l hl
    rw [hg.mem_listeners_link hp hc] at hl ⊢
    rcases hl with hl | ⟨hc', hl, -, hq⟩
    · rw [(rehung_link hp _ _).children] at hd
      split_ifs at hd with hqp
      · rcases (List.mem_insertIdx hi).1 hd with rfl | hd
        · exact .inr ⟨hne, hqp ▸ hl, hne, .refl⟩
        · exact .inl (h q d (hqp ▸ hd) hne hl)
      · exact .inl (h q d hd hne hl)
    · exact .inr ⟨hc', hl, hne, .head ((hg.parent_iff hne).2 hd) hq⟩
  | @unlink p c i _ hi =>
    intro q d hd hne
    rw [listeners_unlink, listeners_unlink]
    rw [(rehung_unlink (has_of_getElem?_children hi) _ _).children] at hd
    split_ifs at hd with hq
    · exact h q d (hq ▸ List.mem_of_mem_eraseIdx hd) hne
    · exact h q d hd hne
  | @free n _ _ hfree =>
    intro q d hd hne
    rw [children_discard] at hd
    split_ifs at hd with hq
    · cases hd
    · rw [listeners_discard, listeners_discard, if_neg hq,
        if_neg (hf.ne_of_mem_children hfree hd hne)]
      exact h q d hd hne

theorem Spreads.steps (h : f.Spreads) (hf : f.Linked) (hs : f.Steps S g) : g.Spreads := by
  induction hs with
  | refl => exact h
  | tail hs hstep ih => exact ih.step (hf.steps hs) hstep

theorem Spreads.hear (h : f.Spreads) (hf : f.Linked) (hn : f.Has n) : (f.hearBelow n x).Spreads := by
  have halike := alike_hearBelow f n x
  intro p c hc hne l hl
  rw [halike.children] at hc
  rw [mem_listeners_hearBelow] at hl ⊢
  rcases hl with hl | ⟨rfl, hp, -⟩
  · exact .inl (h p c hc hne hl)
  · exact .inr ⟨rfl, hf.mem_members_of_mem_children hn hp hc hne, hf.has_of_mem hc⟩

/-- Of a node without a parent, the whole tree is unregistered. -/
theorem Spreads.unhear (h : f.Spreads) (hf : f.Linked) (hn : f.Has n) (hfree : f.parent n = none) :
    (f.unhearBelow n x).Spreads := by
  have halike := alike_unhearBelow f n x
  intro p c hc hne l hl
  rw [halike.children] at hc
  rw [mem_listeners_unhearBelow] at hl ⊢
  exact ⟨h p c hc hne hl.1, fun ⟨hx, hm⟩ =>
    hl.2 ⟨hx, (hf.mem_members_iff_of_parent_none hn hfree hc hne).1 hm⟩⟩

/-- Whether an action that unregisters does so on a node without a parent. -/
def UnhearsTop (f : Forest) (action : Action) : Prop :=
  ∀ n l, action = .unhear n l → f.parent n = none

theorem Spreads.after (h : f.Spreads) (hf : f.Linked) (ha : f.Admits action)
    (htop : f.UnhearsTop action) : (f.after action).Spreads := by
  by_cases hm : action.Rearranges
  · exact h.steps hf ((moves_after hf ha hm).steps hf.ready)
  · cases action with
    | drop m => exact h.steps hf steps_drop
    | hear m x => exact h.hear hf (ha m List.mem_cons_self)
    | unhear m x => exact h.unhear hf (ha m List.mem_cons_self) (htop m x rfl)
    | _ =>
      rcases (effect hf ha).steps_or_same_links with hs | ⟨-, hchildren⟩
      · exact h.steps hf hs
      · exact h.congr hchildren fun n => listeners_after hm nofun nofun nofun

theorem spreads_start : start.Spreads := by
  intro p c hc
  have hnil : start.children p = [] := by
    obtain ⟨i⟩ := p
    cases i <;> rfl
  rw [hnil] at hc
  cases hc

/-- Whoever hears of a node hears of its children and of all that stands below it, no node lists a
listener twice, and the placeholder has none. -/
structure WellHeard (f : Forest) : Prop where
  children : ∀ p, ∀ c ∈ f.children p, c ≠ .placeholder → f.listeners p ⊆ f.listeners c
  below : ∀ p n, f.Under n p → n ≠ .placeholder → f.listeners p ⊆ f.listeners n
  once : ∀ n, (f.listeners n).Nodup
  placeholder : f.listeners .placeholder = []

theorem Spreads.wellHeard (h : f.Spreads) (hf : f.Reachable) : f.WellHeard where
  children := h
  below _ _ hn hne := h.under hf.linked hn hne
  once := hf.nodup_listeners
  placeholder := hf.linked.listeners_placeholder

/-- As long as nodes are only unregistered while they have no parent, listeners are spread over whole
subtrees in every state. -/
theorem wellHeard_of_unhearsTop
    (h : start.Along (fun f action => f.Admits action ∧ f.UnhearsTop action) actions) :
    start.Throughout WellHeard actions := by
  refine throughout_of_along (fun hf ha hw => ?_) (fun ha => ha.1) .start h
    (spreads_start.wellHeard .start)
  have hs : Spreads _ := hw.children
  exact (hs.after hf.linked ha.1 ha.2).wellHeard (hf.after ha.1)

/-- Makes a `lambda` that is heard of, adds to it what nobody heard of, and unregisters. -/
def heardLambda : List Action :=
  oneParameter ++ [.hear ⟨1⟩ ⟨0⟩, .plant (.identifier "y"), .addBound ⟨1⟩ ⟨4⟩, .unhear ⟨1⟩ ⟨0⟩]

theorem wellHeard_heardLambda :
    (start.run (heardLambda.take 6)).listeners ⟨4⟩ = [⟨0⟩] ∧
      start.Along (fun f action => f.Admits action ∧ f.UnhearsTop action) heardLambda ∧
      start.Throughout WellHeard heardLambda := by
  have h : start.Along (fun f action => f.Admits action ∧ f.UnhearsTop action) heardLambda := by
    refine ⟨⟨by decide, nofun⟩, ⟨by decide, nofun⟩, ⟨by decide, nofun⟩, ⟨by decide, nofun⟩,
      ⟨by decide, nofun⟩, ⟨by decide, nofun⟩, ⟨by decide, fun n l hn => ?_⟩, trivial⟩
    cases hn
    decide
  exact ⟨by decide, h, wellHeard_of_unhearsTop h⟩

end Forest

end MathTree

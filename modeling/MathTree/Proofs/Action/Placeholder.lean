import MathTree.Proofs.Action.Order

/-!
# The placeholder

One node stands for whatever is absent or not recognised, in all trees and in many places at once.  In
every forest that can be reached it is as it was made (`Forest.Pristine`), also if it was given to
actions itself, and it keeps its places: whatever is done to the other children of a node that holds
it, it is still among them as often as it was and in the same order
(`Reachable.placeholder_undisturbed`).
-/

namespace MathTree

open Forest

variable {f g : Forest} {n p c : NodeId} {i : Nat} {action : Action}

/-- The nodes that an action puts below others.  What it puts there in copies is new, unless it is the
placeholder. -/
def Action.given : Action → List NodeId
  | .append _ c | .prepend _ c | .insertAt _ _ c | .replaceAt _ _ c => [c]
  | .setLeft _ c | .setRight _ c | .setOperand _ c | .setBody _ c => [c]
  | .qualify _ c | .addBound _ c | .setFallback _ c => [c]
  | .piece v c | .addCase _ v c => [v, c]
  | .substitute _ _ n => if n = .placeholder then [n] else []
  | .plant _ | .compose _ | .copy _ | .removeAt .. | .detach _ | .drop _ => []
  | .setKind .. | .setStrict .. | .assign .. | .hear .. | .unhear .. => []
  | .openContainer .. | .closeContainer _ | .anchor .. | .unanchor _ => []

namespace Forest

/-- Where an action takes a child away by its place or by the part it plays. -/
def opening (f : Forest) : Action → Option (NodeId × Nat)
  | .removeAt p i | .replaceAt p i _ => some (p, i)
  | .setLeft p _ | .setOperand p _ => some (p, 0)
  | .setRight p _ => if 2 ≤ f.childCount p then some (p, f.childCount p - 1) else none
  | .setBody p _ => (f.head p).boundCount.toOption.map (p, ·)
  | _ => none

/-- The child that an action takes away by its place or by the part it plays, if the node shows one
there. -/
def taken? (f : Forest) (action : Action) : Option NodeId :=
  (f.opening action).bind fun place => (f.shown place.1)[place.2]?

theorem childAt_ne_of_taken? (hopen : f.opening action = some (p, i))
    (htaken : f.taken? action ≠ some c) : f.childAt p i ≠ .ok c := by
  intro hat
  have hi : i < f.childCount p := by
    by_contra hi
    rw [childAt_of_le (Nat.le_of_not_lt hi)] at hat
    cases hat
  refine htaken ?_
  rw [taken?, hopen, Option.bind_some, getElem?_shown hi, getElem?_of_childAt hat]

/-! ### Making nodes -/

/-- To make nodes from copies is to move none that was there. -/
theorem Linked.inOrder_of_moves_new {moved : List NodeId} (hf : f.Linked)
    (hm : f.Moves f.New g) : f.InOrder moved f g :=
  inOrder_of_children fun p hp => by rw [children, hf.get_of_moves_new hm hp, children]

/-! ### Actions -/

theorem InOrder.after {α : Type} {e : Forest} {moved : List NodeId} {edit : Edit α}
    {k : α → Outcome} (h : e.InOrder moved f (edit.run f).2) (haction : action.perform = k <$> edit) :
    e.InOrder moved f (f.after action) :=
  after_map haction ▸ h

theorem inOrder_after (hf : f.Linked) (ha : f.Admits action) (hdrop : ∀ n, action ≠ .drop n)
    (htaken : f.taken? action ≠ some .placeholder) : f.InOrder action.given f (f.after action) := by
  have hr := hf.ready_new
  have h₁ {n : NodeId} {l : List NodeId} (h : action.nodes = n :: l) : f.Has n :=
    ha n (h ▸ List.mem_cons_self)
  have h₂ {m n : NodeId} {l : List NodeId} (h : action.nodes = m :: n :: l) : f.Has n :=
    ha n (h ▸ List.mem_cons_of_mem _ List.mem_cons_self)
  have hgiven {c : NodeId} (h : action.given = [c]) : c ∈ action.given ∨ ¬ f.Has c :=
    .inl (h ▸ List.mem_cons_self)
  have hplain (hm : ¬ action.Rearranges) : f.InOrder action.given f (f.after action) :=
    inOrder_of_children fun p _ => (annotates_after hm hdrop).children p
  cases action with
  | plant seed => exact hf.inOrder_of_moves_new (.after (Edit.movesTo_plant hr seed) rfl)
  | compose recipe => exact hf.inOrder_of_moves_new (.after (Edit.movesTo_compose hr ha) rfl)
  | copy n => exact hf.inOrder_of_moves_new (.after (Edit.movesTo_copy hr (h₁ rfl)) rfl)
  | qualify kind c => exact .after (hf.inOrder_qualify kind (h₁ rfl)) rfl
  | piece v c => exact .after (hf.inOrder_piece (h₁ rfl) (h₂ rfl)) rfl
  | append p c => exact .after (hf.inOrder_append (h₁ rfl) (hgiven rfl)) rfl
  | prepend p c => exact .after (hf.inOrder_insertAt (h₁ rfl) (hgiven rfl)) rfl
  | insertAt p i c => exact .after (hf.inOrder_insertAt (h₁ rfl) (hgiven rfl)) rfl
  | removeAt p i => exact .after (hf.inOrder_removeAt (childAt_ne_of_taken? rfl htaken)) rfl
  | replaceAt p i c =>
    exact .after (hf.inOrder_replaceAt (hgiven rfl) (childAt_ne_of_taken? rfl htaken)) rfl
  | detach n => exact hf.inOrder_detach n
  | drop n => exact absurd rfl (hdrop n)
  | setLeft p c =>
    have hold := childAt_ne_of_taken? rfl htaken
    exact .after (hf.inOrder_setLeft (h₁ rfl) (hgiven rfl) hold) rfl
  | setRight p c =>
    have hold (hcount : 2 ≤ f.childCount p) :=
      childAt_ne_of_taken? (by rw [opening, if_pos hcount]) htaken
    exact .after (hf.inOrder_setRight (h₁ rfl) (hgiven rfl) hold) rfl
  | setOperand p c =>
    have hold := childAt_ne_of_taken? rfl htaken
    exact .after (hf.inOrder_setOperand (h₁ rfl) (hgiven rfl) hold) rfl
  | setBody p c =>
    have hold (k : Nat) (hk : (f.head p).boundCount = .ok k) :=
      childAt_ne_of_taken? (by rw [opening, hk]; rfl) htaken
    exact .after (hf.inOrder_setBody (h₁ rfl) (hgiven rfl) hold) rfl
  | addBound p v => exact .after (hf.inOrder_addBound (h₁ rfl) (h₂ rfl) List.mem_cons_self) rfl
  | addCase p v c =>
    have hc : f.Has c := ha c (by simp [Action.nodes])
    exact .after (hf.inOrder_addCase (h₁ rfl) (h₂ rfl) hc) rfl
  | setFallback p v => exact .after (hf.inOrder_setFallback (h₁ rfl) (h₂ rfl)) rfl
  | substitute p name n =>
    exact .after (Edit.substituted_substitute hf (h₂ rfl) name (h₁ rfl)).inOrder rfl
  | _ => exact hplain id

/-- Only the node that is given up can lose its children. -/
theorem children_drop (hpn : p ≠ n) : (f.after (.drop n)).children p = f.children p := by
  rw [after_map rfl, Edit.run_drop]
  dsimp only
  split_ifs
  · rfl
  · rw [children_discard, if_neg hpn]

/-- The placeholder is strict and of no known kind.  It says nothing else of itself, it is linked to
nothing, nobody hears of it and it is its own copy.  No other node is made in its place. -/
structure Pristine (f : Forest) : Prop where
  has : f.Has .placeholder
  kind : f.kind .placeholder = .unknown
  strict : (f.head .placeholder).strict
  id : (f.head .placeholder).id = none
  style : (f.head .placeholder).style = none
  styleClass : (f.head .placeholder).styleClass = none
  children : f.children .placeholder = []
  parent : f.parent .placeholder = none
  listeners : f.listeners .placeholder = []
  anchor : f.anchor .placeholder = none
  container : f.container? .placeholder = none
  copy : (Edit.copy .placeholder).run f = (.ok .placeholder, f)
  plant : ∀ seed n, ((Edit.plant seed).run f).1 = .ok n → n ≠ .placeholder

theorem Linked.pristine (hf : f.Linked) : f.Pristine where
  has := hf.has_placeholder
  kind := by rw [kind, hf.head_placeholder]; rfl
  strict := by rw [hf.head_placeholder]; rfl
  id := by rw [hf.head_placeholder]; rfl
  style := by rw [hf.head_placeholder]; rfl
  styleClass := by rw [hf.head_placeholder]; rfl
  children := hf.children_placeholder
  parent := hf.parent_placeholder
  listeners := hf.listeners_placeholder
  anchor := hf.anchor_placeholder
  container := by rw [container?, hf.placeholder]; rfl
  copy := by
    have hspine : f.spine .placeholder = .node .placeholder [] := by
      rw [hf.spine_eq hf.has_placeholder, hf.children_placeholder, List.map_nil]
    rw [Edit.copy, Edit.run_bind, Edit.run_get]
    dsimp only
    rw [hspine, Edit.copySpine_node, if_pos rfl, Edit.run_pure]
  plant seed n hn := by
    have hrun : ((Edit.plant seed).run f).1 = seed.head?.map fun _ => f.next := by
      rw [Edit.plant, Edit.run_bind, Edit.run_lift]
      cases seed.head? <;> rfl
    rw [hrun] at hn
    cases hseed : seed.head? with
    | error fault =>
      rw [hseed] at hn
      cases hn
    | ok head =>
      rw [hseed] at hn
      exact Except.ok.inj hn ▸ hf.next_ne_placeholder

/-- In every forest that can be reached, the placeholder is pristine.  An action that does not take the
placeholder itself from a node, and does not free the node, leaves it wherever it was among its
children, in the same order as the children that the action does not move and that are not gone.
Unless the action is given the placeholder, it comes to stand nowhere else among them. -/
theorem Reachable.placeholder_undisturbed (hf : f.Reachable) :
    f.Pristine ∧
    ∀ action p, f.Admits action → f.Has p → action ≠ .drop p →
      f.taken? action ≠ some .placeholder →
      ((f.children p).filter fun c => c = .placeholder ∨
        c ∉ action.given ∧ c ∈ (f.after action).children p).Sublist ((f.after action).children p) ∧
      (.placeholder ∉ action.given → ((f.after action).children p).count .placeholder
        = (f.children p).count .placeholder) := by
  have h := hf.linked
  refine ⟨h.pristine, fun action p ha hp hdrop htaken => ?_⟩
  by_cases hfree : ∃ n, action = .drop n
  · obtain ⟨n, rfl⟩ := hfree
    rw [children_drop fun hpn => hdrop (congrArg Action.drop hpn.symm)]
    exact ⟨List.filter_sublist, fun _ => rfl⟩
  · have horder := inOrder_after h ha (fun n hn => hfree ⟨n, hn⟩) htaken
    have hkept := horder.sublist hp
    have hhas : (f.children p).filter (fun c => c = .placeholder ∨
          c ∉ action.given ∧ c ∈ (f.after action).children p)
        = (f.children p).filter fun c => c = .placeholder ∨
          f.Has c ∧ c ∉ action.given ∧ c ∈ (f.after action).children p :=
      List.filter_congr fun c hc => by simp [h.has_of_mem hc]
    refine ⟨hhas ▸ hkept, fun hnot => Nat.le_antisymm ?_ ?_⟩
    · exact horder.count_le hp h.has_placeholder hnot
    · refine Nat.le_trans (Nat.le_of_eq ?_) (hkept.count_le _)
      rw [List.count_filter (by simp)]

/-- The name that stands between two places of the placeholder is moved behind them, and another name
is put in its place. -/
theorem placeholder_undisturbed_flankedName :
    let f := start.run flankedName
    let g := f.after (.insertAt ⟨1⟩ 2 ⟨2⟩)
    let e := g.after (.replaceAt ⟨1⟩ 2 ⟨4⟩)
    (f.Reachable ∧ g.Reachable) ∧ g.Pristine ∧
      f.children ⟨1⟩ = [.placeholder, ⟨2⟩, .placeholder] ∧
      g.children ⟨1⟩ = [.placeholder, .placeholder, ⟨2⟩] ∧
      (e.children ⟨1⟩).count .placeholder = 2 ∧
      ((f.children ⟨1⟩).filter fun c => c = .placeholder ∨
        c ∉ [⟨2⟩] ∧ c ∈ g.children ⟨1⟩).Sublist (g.children ⟨1⟩) := by
  have hf : (start.run flankedName).Reachable := Reachable.start.run (by decide)
  have hadmits : (start.run flankedName).Admits (.insertAt ⟨1⟩ 2 ⟨2⟩) := by decide
  have hg := hf.after hadmits
  have hchildren : ((start.run flankedName).after (.insertAt ⟨1⟩ 2 ⟨2⟩)).children ⟨1⟩
      = [.placeholder, .placeholder, ⟨2⟩] := by decide +kernel
  have hmoved := hf.placeholder_undisturbed.2 (.insertAt ⟨1⟩ 2 ⟨2⟩) ⟨1⟩ hadmits (by decide) nofun
    nofun
  have hexchanged := hg.placeholder_undisturbed.2 (.replaceAt ⟨1⟩ 2 ⟨4⟩) ⟨1⟩ (by decide +kernel)
    (by decide +kernel) nofun (by decide +kernel)
  refine ⟨⟨hf, hg⟩, hg.placeholder_undisturbed.1, by decide +kernel, hchildren, ?_, hmoved.1⟩
  rw [hexchanged.2 (by decide), hchildren]
  rfl

end Forest

end MathTree

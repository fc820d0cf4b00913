import MathTree.Proofs.Edit.ComposeMoves
import MathTree.Proofs.Forest.Anchors

/-!
# What an action does

`Forest.Effect` lists all that an action can do to the heads and the links of a linked forest: take
elementary steps, leave them alone, or write the head of one node, and `effect` shows that every
action does one of these.  What is kept by each of them is kept by every action, and so holds of every
forest that can be reached (`Forest.Reachable`).  `Forest.Annotates` says what an action leaves alone
that neither makes, moves nor frees nodes.
-/

namespace MathTree

open Forest

variable {S : NodeId → Prop} {f g e : Forest} {m n : NodeId} {h : Head}

/-- Whether an action makes nodes or moves them, and does nothing else. -/
def Action.Rearranges : Action → Prop
  | .plant _ | .qualify .. | .piece .. | .compose _ | .copy _ => True
  | .append .. | .prepend .. | .insertAt .. | .removeAt .. | .replaceAt .. | .detach _ => True
  | .setLeft .. | .setRight .. | .setOperand .. => True
  | .addBound .. | .setBody .. | .addCase .. | .setFallback .. | .substitute .. => True
  | .drop _ | .setKind .. | .setStrict .. | .assign .. | .hear .. | .unhear .. => False
  | .openContainer .. | .closeContainer _ | .anchor .. | .unanchor _ => False

namespace Forest

/-! ### Writing a head -/

/-- The forests are alike, but that a node has this head, of the form that it had. -/
structure Rewritten (f g : Forest) (n : NodeId) (h : Head) : Prop where
  size : g.records.size = f.records.size
  head : ∀ m, g.head m = if m = n then h else f.head m
  form : h.form = (f.head n).form
  parent : ∀ m, g.parent m = f.parent m
  children : ∀ m, g.children m = f.children m
  placeholder : g.get .placeholder = f.get .placeholder

theorem Rewritten.of_alike (h' : f.Rewritten g n h) (hg : g.Alike e) : f.Rewritten e n h where
  size := hg.size.trans h'.size
  head m := (hg.head m).trans (h'.head m)
  form := h'.form
  parent m := (hg.parent m).trans (h'.parent m)
  children m := (hg.children m).trans (h'.children m)
  placeholder := hg.placeholder.trans h'.placeholder

theorem rewritten_modify (change : Head → Head) (hn : f.Has n)
    (hform : (change (f.head n)).form = (f.head n).form)
    (hph : n = .placeholder → change (f.head n) = f.head n) :
    f.Rewritten (f.modify n fun r => { r with head := change r.head }) n (change (f.head n)) := by
  refine ⟨by simp [modify], fun m => ?_, hform, fun m => ?_, fun m => ?_, ?_⟩
  · rw [head, get_modify]
    by_cases hm : m = n
    · subst hm
      rw [if_pos ⟨rfl, hn⟩, if_pos rfl, head]
    · rw [if_neg fun e => hm e.1, if_neg hm, head]
  · rw [parent, get_modify]
    split_ifs <;> rfl
  · rw [children, get_modify]
    split_ifs <;> rfl
  · rw [get_modify]
    split_ifs with h
    · rw [h.1, ← head, hph h.1.symm, head]
    · rfl

theorem Rewritten.linked (h' : f.Rewritten g n h) (hf : f.Linked) : g.Linked := by
  refine hf.of_same_links (fun m hm => ?_) h'.parent h'.children (fun m hm => ?_) h'.placeholder
  · rwa [Has, h'.size]
  · rw [h'.head] at hm
    split_ifs at hm with he
    · left
      rwa [he, Head.isLeaf, ← h'.form]
    · exact .inl hm

/-! ### Effects -/

/-- All that an action can do to heads and links. -/
inductive Effect (f : Forest) : Action → Forest → Prop
  | moved {action : Action} {g : Forest} (hs : f.Steps (fun _ => True) g) : Effect f action g
  | alike {action : Action} {g : Forest} (hg : f.Alike g) : Effect f action g
  /-- Kind and counts are as they were. -/
  | rewritten {action : Action} {g : Forest} {n : NodeId} {h : Head} (hr : f.Rewritten g n h)
    (hkind : h.kind = f.kind n)
    (hcounts : h.payload = (f.head n).payload ∨ h.form ≠ .lambda ∧ h.form ≠ .piecewise) :
    Effect f action g
  | rekinded {g : Forest} {n : NodeId} {kind : Kind} (hallows : (f.head n).form.allows kind)
    (hr : f.Rewritten g n { f.head n with kind := kind }) : Effect f (.setKind n kind) g

theorem Effect.linked {action : Action} (h' : f.Effect action g) (hf : f.Linked) : g.Linked := by
  cases h' with
  | moved hs => exact hf.steps hs
  | alike hg => exact hf.of_alike hg
  | rewritten hr => exact hr.linked hf
  | rekinded _ hr => exact hr.linked hf

/-- What takes no steps leaves all links alone. -/
theorem Effect.steps_or_same_links {action : Action} (h' : f.Effect action g) :
    f.Steps (fun _ => True) g ∨
      (∀ m, g.parent m = f.parent m) ∧ ∀ m, g.children m = f.children m := by
  cases h' with
  | moved hs => exact .inl hs
  | alike hg => exact .inr ⟨hg.parent, hg.children⟩
  | rewritten hr => exact .inr ⟨hr.parent, hr.children⟩
  | rekinded _ hr => exact .inr ⟨hr.parent, hr.children⟩

theorem Rewritten.kind (hr : f.Rewritten g n h) (m : NodeId) :
    g.kind m = if m = n then h.kind else f.kind m := by
  rw [Forest.kind, hr.head]
  split_ifs <;> rfl

/-- Every node is of the kind that it was if the head that is written is. -/
theorem Rewritten.kind_of_same (hr : f.Rewritten g n h) (hkind : h.kind = f.kind n) (m : NodeId) :
    g.kind m = f.kind m := by
  rw [hr.kind]
  split_ifs with hm
  · rw [hkind, hm]
  · rfl

/-- Only by being asked to does a node take another kind. -/
theorem Effect.kind {action : Action} (he : f.Effect action g) (hm : f.Has m)
    (ha : ∀ kind, action ≠ .setKind m kind) : g.kind m = f.kind m := by
  cases he with
  | moved hs => exact hs.kind hm
  | alike hg => exact hg.kind m
  | rewritten hr hkind => exact hr.kind_of_same hkind m
  | rekinded _ hr =>
    rw [hr.kind, if_neg]
    rintro rfl
    exact ha _ rfl

theorem Effect.form {action : Action} (he : f.Effect action g) (hm : f.Has m) :
    (g.head m).form = (f.head m).form := by
  cases he with
  | moved hs => exact hs.form hm
  | alike hg => rw [hg.head]
  | rewritten hr | rekinded _ hr =>
    rw [hr.head]
    split_ifs with hmn
    · rw [hr.form, hmn]
    · rfl

end Forest

/-! ### Assignments -/

theorem Payload.withUnits?_spec {payload payload' : Payload} {units : Option String}
    (h : payload.withUnits? units = some payload') :
    payload'.form = payload.form ∧ payload.form ≠ .lambda ∧ payload.form ≠ .piecewise := by
  cases payload <;> cases h <;> exact ⟨rfl, nofun, nofun⟩

theorem Payload.withSymbol?_spec {payload payload' : Payload} {change : Symbol → Symbol}
    (h : payload.withSymbol? change = some payload') :
    payload'.form = payload.form ∧ payload.form ≠ .lambda ∧ payload.form ≠ .piecewise := by
  cases payload <;> cases h <;> exact ⟨rfl, nofun, nofun⟩

/-- Counts are not assigned. -/
theorem Payload.assign?_spec {payload payload' : Payload} {assignment : Assignment}
    (h : payload.assign? assignment = some payload') :
    payload'.form = payload.form ∧ payload.form ≠ .lambda ∧ payload.form ≠ .piecewise := by
  cases assignment with
  | units => exact withUnits?_spec h
  | name | definitionUrl | encoding => exact withSymbol?_spec h
  | _ => cases payload <;> cases h <;> exact ⟨rfl, nofun, nofun⟩

theorem Head.assign?_spec {h h' : Head} {assignment : Assignment}
    (ha : h.assign? assignment = some h') : h'.form = h.form ∧ h'.kind = h.kind ∧
      (h'.payload = h.payload ∨ h'.form ≠ .lambda ∧ h'.form ≠ .piecewise) := by
  have hrest (hp : (h.payload.assign? assignment).map ({ h with payload := · }) = some h') :
      h'.form = h.form ∧ h'.kind = h.kind ∧
        (h'.payload = h.payload ∨ h'.form ≠ .lambda ∧ h'.form ≠ .piecewise) := by
    obtain ⟨payload, hp', rfl⟩ := Option.map_eq_some_iff.1 hp
    obtain ⟨hform, hne⟩ := Payload.assign?_spec hp'
    refine ⟨hform, rfl, .inr ?_⟩
    rw [show Head.form { h with payload := payload } = h.payload.form from hform]
    exact hne
  cases assignment with
  | id | style | styleClass =>
    cases ha
    exact ⟨rfl, rfl, .inl rfl⟩
  | _ => exact hrest ha

/-! ### Values -/

namespace Edit

theorem run_setKind {kind : Kind} : (setKind n kind).run f
    = if (f.head n).form.allows kind then
        (.ok (), (f.modify n fun r => { r with head := { r.head with kind := kind } }).announceIfChanged
          n .kind (.kind (f.kind n)) (.kind kind))
      else (.error (.kindRefused kind (f.head n).form), f) := by
  simp only [setKind, run_bind, run_get, run_ite, run_throw, run_modify]
  cases (f.head n).form.allows kind <;> rfl

theorem run_setStrict {strict : Bool} : (setStrict n strict).run f
    = if n = .placeholder then (.ok (), f)
      else
        (.ok (), (f.modify n fun r =>
          { r with head := { r.head with strict := strict } }).announceIfChanged
            n .strict (.flag (f.head n).strict) (.flag strict)) := by
  simp only [setStrict, run_bind, run_get, run_ite, run_pure, run_modify]

theorem run_assign {assignment : Assignment} : (assign n assignment).run f
    = if n = .placeholder then (.ok (), f)
      else match (f.head n).assign? assignment with
        | none => (.error (.unsupported (.write assignment.field) (f.kind n)), f)
        | some head =>
          let g := f.modify n ({ · with head := head })
          (.ok (), g.announce n (.field assignment.field) (f.datum n (.field assignment.field))
            (g.datum n (.field assignment.field))) := by
  simp only [assign, run_bind, run_get, run_ite, run_pure]
  split_ifs
  · rfl
  · cases (f.head n).assign? assignment <;> rfl

end Edit

namespace Forest

theorem after_map {α : Type} {edit : Edit α} {k : α → Outcome} {action : Action}
    (haction : action.perform = k <$> edit) : f.after action = (edit.run f).2 := by
  rw [after, haction, Edit.run_map]

theorem Moves.after {α : Type} {edit : Edit α} {P : α → Forest → Prop} {k : α → Outcome}
    {action : Action} (he : edit.MovesTo S f P) (haction : action.perform = k <$> edit) :
    f.Moves S (f.after action) :=
  after_map haction ▸ he.1

variable (hf : f.Linked)
include hf

theorem rewritten_setKind {kind : Kind} (hn : f.Has n) (hallows : (f.head n).form.allows kind) :
    f.Rewritten (f.after (.setKind n kind)) n { f.head n with kind := kind } := by
  have hr := rewritten_modify ({ · with kind := kind }) hn rfl fun hph => by
    -- the placeholder is of a form with one kind
    rw [hph, hf.head_placeholder] at hallows ⊢
    have hmem : kind ∈ (Head.ofKind .unknown).form.kinds := by simpa [Form.allows] using hallows
    rw [show kind = .unknown from List.mem_singleton.1 hmem]
    rfl
  rw [after_map rfl, Edit.run_setKind, if_pos hallows]
  exact hr.of_alike (alike_announceIfChanged _ _ _ _ _)

theorem effect_setKind {kind : Kind} (hn : f.Has n) :
    f.Effect (.setKind n kind) (f.after (.setKind n kind)) := by
  by_cases hallows : (f.head n).form.allows kind
  · exact .rekinded hallows (rewritten_setKind hf hn hallows)
  · rw [after_map rfl, Edit.run_setKind, if_neg hallows]
    exact .alike (.refl f)

omit hf in
theorem effect_setStrict {strict : Bool} (hn : f.Has n) :
    f.Effect (.setStrict n strict) (f.after (.setStrict n strict)) := by
  rw [after_map rfl, Edit.run_setStrict]
  split_ifs with hne
  · exact .alike (.refl f)
  · have hr := rewritten_modify ({ · with strict := strict }) hn rfl fun h => absurd h hne
    exact .rewritten (hr.of_alike (alike_announceIfChanged _ _ _ _ _)) rfl (.inl rfl)

omit hf in
theorem effect_assign {assignment : Assignment} (hn : f.Has n) :
    f.Effect (.assign n assignment) (f.after (.assign n assignment)) := by
  rw [after_map rfl, Edit.run_assign]
  split_ifs with hne
  · exact .alike (.refl f)
  · cases hassign : (f.head n).assign? assignment with
    | none => exact .alike (.refl f)
    | some h =>
      obtain ⟨hform, hkind, hcounts⟩ := Head.assign?_spec hassign
      have hr := rewritten_modify (fun _ => h) hn hform fun h => absurd h hne
      exact .rewritten (hr.of_alike (alike_announce _ _ _ _ _)) hkind hcounts

omit hf in
theorem steps_drop_within (hn : S n) : f.Steps S (f.after (.drop n)) := by
  rw [after_map rfl, Edit.run_drop]
  dsimp only
  split_ifs with hkeep
  · exact .refl
  · obtain ⟨hne, hp⟩ := not_or.1 hkeep
    exact .single (.free hn hne (by simpa using hp))

omit hf in
theorem steps_drop : f.Steps (fun _ => True) (f.after (.drop n)) := steps_drop_within trivial

omit hf in
/-- An action that makes or moves nodes is a list of moves, within any region that it is given nodes
of. -/
theorem Ready.moves_after (hr : f.Ready S) {action : Action}
    (hw : ∀ n ∈ action.nodes, f.Within S n) (hm : action.Rearranges) :
    f.Moves S (f.after action) := by
  have h₁ {n : NodeId} {l : List NodeId} (h : action.nodes = n :: l) : f.Within S n :=
    hw n (h ▸ List.mem_cons_self)
  have h₂ {m n : NodeId} {l : List NodeId} (h : action.nodes = m :: n :: l) : f.Within S n :=
    hw n (h ▸ List.mem_cons_of_mem _ List.mem_cons_self)
  cases action with
  | plant seed => exact .after (Edit.movesTo_plant hr seed) rfl
  | qualify kind c => exact .after (Edit.movesTo_qualify hr kind (h₁ rfl)) rfl
  | piece v c => exact .after (Edit.movesTo_piece hr (h₁ rfl) (h₂ rfl)) rfl
  | compose recipe => exact .after (Edit.movesTo_compose hr fun n hn => (hw n hn).1) rfl
  | copy n => exact .after (Edit.movesTo_copy hr (h₁ rfl).1) rfl
  | append p c => exact .after (Edit.movesTo_append (h₁ rfl) (h₂ rfl)) rfl
  | prepend p c => exact .after (Edit.movesTo_insertAt (h₁ rfl) (h₂ rfl)) rfl
  | insertAt p i c => exact .after (Edit.movesTo_insertAt (h₁ rfl) (h₂ rfl)) rfl
  | removeAt p i => exact .after (Edit.movesTo_removeAt (h₁ rfl)) rfl
  | replaceAt p i c => exact .after (Edit.movesTo_replaceAt hr (h₁ rfl) (h₂ rfl)) rfl
  | detach n => exact .after (Edit.movesTo_detach hr (h₁ rfl)) rfl
  | setLeft p c => exact .after (Edit.movesTo_setLeft hr (h₁ rfl) (h₂ rfl)) rfl
  | setRight p c => exact .after (Edit.movesTo_setRight hr (h₁ rfl) (h₂ rfl)) rfl
  | setOperand p c => exact .after (Edit.movesTo_setOperand hr (h₁ rfl) (h₂ rfl)) rfl
  | addBound p v => exact .after (Edit.movesTo_addBound hr (h₁ rfl) (h₂ rfl)) rfl
  | setBody p b => exact .after (Edit.movesTo_setBody hr (h₁ rfl) (h₂ rfl)) rfl
  | addCase p v c =>
    have hc : f.Within S c := hw c (by simp [Action.nodes])
    exact .after (Edit.movesTo_addCase hr (h₁ rfl) (h₂ rfl) hc) rfl
  | setFallback p v => exact .after (Edit.movesTo_setFallback hr (h₁ rfl) (h₂ rfl)) rfl
  | substitute p name n =>
    exact .after (Edit.movesTo_substitute hr name (h₂ rfl).1 (h₁ rfl)) rfl
  | _ => exact hm.elim

theorem moves_after {action : Action} (ha : f.Admits action) (hm : action.Rearranges) :
    f.Moves (fun _ => True) (f.after action) :=
  hf.ready.moves_after (fun n hn => ⟨ha n hn, trivial⟩) hm

theorem effect {action : Action} (ha : f.Admits action) : f.Effect action (f.after action) := by
  have hone {n : NodeId} (h : action.nodes = [n]) : f.Has n := ha n (h ▸ List.mem_cons_self)
  cases action with
  | drop n => exact .moved steps_drop
  | setKind n kind => exact effect_setKind hf (hone rfl)
  | setStrict n strict => exact effect_setStrict (hone rfl)
  | assign n assignment => exact effect_assign (hone rfl)
  | hear n listener => exact .alike (alike_hearBelow f n listener)
  | unhear n listener => exact .alike (alike_unhearBelow f n listener)
  | openContainer level version => exact .alike (alike_of_records rfl)
  | closeContainer c => exact .alike (alike_of_records rfl)
  | anchor n c => exact .alike (alike_anchorBelow f n _)
  | unanchor n => exact .alike (alike_anchorBelow f n _)
  | _ => exact .moved ((moves_after hf ha trivial).steps hf.ready)

end Forest

/-! ### Actions that only annotate -/

namespace Forest

/-- The forest has the same nodes with the same children.  They have the same listeners and anchors
too, unless the action is about these. -/
structure Annotates (f : Forest) (action : Action) (g : Forest) : Prop where
  has : ∀ n, g.Has n ↔ f.Has n
  children : ∀ n, g.children n = f.children n
  listeners : (∀ n x, action ≠ .hear n x) → (∀ n x, action ≠ .unhear n x) →
    ∀ n, g.listeners n = f.listeners n
  anchor : (∀ n k, action ≠ .anchor n k) → (∀ n, action ≠ .unanchor n) →
    ∀ n, g.anchor n = f.anchor n

theorem annotates_of_records {action : Action} (h : g.records = f.records) :
    f.Annotates action g := by
  have hget : g.get = f.get := funext fun n => by simp [get, h]
  refine ⟨fun n => by rw [Has, h, Has], fun n => ?_, fun _ _ n => ?_, fun _ _ n => ?_⟩
  · rw [children, hget, children]
  · rw [listeners, hget, listeners]
  · rw [anchor, hget, anchor]

theorem annotates_modify {action : Action} (change : Head → Head) (n : NodeId)
    (hg : g.records = (f.modify n fun r => { r with head := change r.head }).records) :
    f.Annotates action g := by
  have h : (f.modify n _).Annotates action g := annotates_of_records hg
  refine ⟨fun m => (h.has m).trans (has_modify f _), fun m => (h.children m).trans ?_,
    fun hx hx' m => (h.listeners hx hx' m).trans (listeners_modify fun _ => rfl),
    fun hk hk' m => (h.anchor hk hk' m).trans (anchor_modify fun _ => rfl)⟩
  rw [children, get_modify]
  split_ifs <;> rfl

theorem records_announceIfChanged (aspect : Aspect) (before after : Datum) :
    (f.announceIfChanged n aspect before after).records = f.records := by
  unfold announceIfChanged
  split_ifs <;> rfl

/-- What neither makes, moves nor frees nodes only annotates them. -/
theorem annotates_after {action : Action} (hm : ¬ action.Rearranges)
    (hdrop : ∀ n, action ≠ .drop n) : f.Annotates action (f.after action) := by
  cases action with
  | drop n => exact absurd rfl (hdrop n)
  | setKind n kind =>
    rw [after_map rfl, Edit.run_setKind]
    split_ifs
    · exact annotates_modify ({ · with kind := kind }) n (records_announceIfChanged _ _ _)
    · exact annotates_of_records rfl
  | setStrict n strict =>
    rw [after_map rfl, Edit.run_setStrict]
    split_ifs
    · exact annotates_of_records rfl
    · exact annotates_modify ({ · with strict := strict }) n (records_announceIfChanged _ _ _)
  | assign n assignment =>
    rw [after_map rfl, Edit.run_assign]
    split_ifs
    · exact annotates_of_records rfl
    · cases (f.head n).assign? assignment with
      | none => exact annotates_of_records rfl
      | some h => exact annotates_modify (fun _ => h) n rfl
  | hear n x =>
    have h := alike_hearBelow f n x
    exact ⟨fun _ => h.has_iff, h.children, fun hx _ => absurd rfl (hx n x),
      fun _ _ _ => anchor_hearBelow x⟩
  | unhear n x =>
    have h := alike_unhearBelow f n x
    exact ⟨fun _ => h.has_iff, h.children, fun _ hx => absurd rfl (hx n x),
      fun _ _ _ => anchor_unhearBelow x⟩
  | anchor n k =>
    have h := alike_anchorBelow f n (some k)
    exact ⟨fun _ => h.has_iff, h.children, fun _ _ _ => listeners_anchorBelow _,
      fun hk _ => absurd rfl (hk n k)⟩
  | unanchor n =>
    have h := alike_anchorBelow f n none
    exact ⟨fun _ => h.has_iff, h.children, fun _ _ _ => listeners_anchorBelow _,
      fun _ hk => absurd rfl (hk n)⟩
  | openContainer level version => exact annotates_of_records rfl
  | closeContainer container => exact annotates_of_records rfl
  | _ => exact absurd trivial hm

theorem discards_or_annotates {action : Action} (hm : ¬ action.Rearranges) :
    (∃ n, f.after action = f.discard n) ∨ f.Annotates action (f.after action) := by
  by_cases hdrop : ∃ n, action = .drop n
  · obtain ⟨n, rfl⟩ := hdrop
    rw [after_map rfl, Edit.run_drop]
    dsimp only
    split_ifs
    · exact .inr (annotates_of_records rfl)
    · exact .inl ⟨n, rfl⟩
  · exact .inr (annotates_after hm fun n h => hdrop ⟨n, h⟩)

end Forest

end MathTree

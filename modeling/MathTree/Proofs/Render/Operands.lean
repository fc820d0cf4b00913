import MathTree.Render.Basic

/-!
# Operands

The operands of what a tree means stand below it: each is a child that the tree shows, or what such a
child stands for (`Head.mem_operands`).  So a property holds of all trees if it holds of each whose
operands have it (`Tree.reading_induction`).  A tree may be refused for what its top is, whatever
stands below (`Tree.refusal?`).
-/

namespace MathTree

/-! ### Computations that succeed -/

theorem exists_of_map_eq_ok {ε α β : Type} {f : α → β} {x : Except ε α} {b : β}
    (h : f <$> x = .ok b) : ∃ a, x = .ok a ∧ f a = b := by
  cases x with
  | error => cases h
  | ok a =>
    cases h
    exact ⟨a, rfl, rfl⟩

theorem exists_of_bind_eq_ok {ε α β : Type} {f : α → Except ε β} {x : Except ε α} {b : β}
    (h : x >>= f = .ok b) : ∃ a, x = .ok a ∧ f a = .ok b := by
  cases x with
  | error => cases h
  | ok a => exact ⟨a, rfl, h⟩

/-! ### Counted operands -/

namespace Head

variable {α : Type} {h : Head} {x y : α} {xs ys : List α}

theorem one_eq_ok (hone : h.one xs = .ok x) : ∃ rest, xs = x :: rest := by
  cases xs with
  | nil => cases hone
  | cons y rest =>
    cases hone
    exact ⟨rest, rfl⟩

theorem two_eq_ok (htwo : h.two xs = .ok (x, y)) : xs = [x, y] := by
  unfold two at htwo
  split at htwo <;> cases htwo
  rfl

theorem full_eq_ok (hf : h.full xs = .ok ys) : ys = xs ∧ xs.length = h.capacity.getD 1 := by
  unfold full at hf
  dsimp only at hf
  split at hf <;> cases hf
  exact ⟨rfl, ‹_›⟩

end Head

/-! ### Operands and children -/

theorem Reading.operands_map {α β : Type} (f : α → β) (r : Reading α) :
    (r.map f).operands = r.operands.map f := by
  cases r <;> rfl

theorem Reading.map_map {α β γ : Type} (f : α → β) (g : β → γ) (r : Reading α) :
    (r.map f).map g = r.map (g ∘ f) := by
  cases r <;> simp [map]

theorem Reading.map_congr {α β : Type} {f g : α → β} {r : Reading α}
    (h : ∀ x ∈ r.operands, f x = g x) : r.map f = r.map g := by
  cases r <;> simp_all [map, operands]

/-- Whatever is known of all children and of what they stand for is known of the operands: a node can
as well be read off with the proofs at hand. -/
theorem Head.mem_operands {α : Type} {h : Head} {isTwo : α → Bool} {slots : List (Slot α)}
    {r : Reading α} {x : α} (hr : h.reading? isTwo slots = .ok r) (hx : x ∈ r.operands) :
    ∃ s ∈ slots, x = s.itself ∨ x = s.content := by
  let Known := { x : α // ∃ s ∈ slots, x = s.itself ∨ x = s.content }
  let known : List (Slot Known) := slots.attach.map fun s =>
    ⟨⟨s.1.itself, s.1, s.2, .inl rfl⟩, ⟨s.1.content, s.1, s.2, .inr rfl⟩⟩
  have hknown : known.map (Slot.map Subtype.val) = slots := by simp [known, Slot.map]
  have hmap : h.reading? isTwo (known.map (Slot.map Subtype.val))
      = (h.reading? (fun x : Known => isTwo x.1) known).map (Reading.map Subtype.val) :=
    h.reading?_map Subtype.val (fun _ => rfl) known
  rw [hknown, hr] at hmap
  cases hk : h.reading? (fun x : Known => isTwo x.1) known with
  | error => simp [hk, Except.map] at hmap
  | ok r' =>
    rw [hk] at hmap
    cases hmap
    rw [Reading.operands_map] at hx
    obtain ⟨y, -, rfl⟩ := List.mem_map.1 hx
    exact y.2

namespace Tree

theorem itself_shown (t : Tree) : (t.shown.map slot).map Slot.itself = t.shown := by
  simp [slot, Function.comp_def]

theorem content_cases (t : Tree) : t.content = t ∨ t.content ∈ t.shown := by
  unfold content
  split
  · cases h : t.shown with
    | nil => exact .inl rfl
    | cons u us => exact .inr List.mem_cons_self
  · exact .inl rfl

theorem mem_operands {t x : Tree} {r : Reading Tree} (hr : t.reading? = .ok r)
    (hx : x ∈ r.operands) : ∃ u ∈ t.shown, x = u ∨ x = u.content := by
  obtain ⟨s, hs, hxs⟩ := Head.mem_operands hr hx
  obtain ⟨u, hu, rfl⟩ := List.mem_map.1 hs
  exact ⟨u, hu, hxs⟩

theorem render_of_ok {β : Type} (R : Renderer β) {t : Tree} {r : Reading Tree}
    (h : t.reading? = .ok r) : t.render R = R.form (r.map (operand R)) := by
  rw [render_eq, h]

theorem render_of_error {β : Type} (R : Renderer β) {t : Tree} {fault : Fault}
    (h : t.reading? = .error fault) : t.render R = R.refuse fault := by
  rw [render_eq, h]

/-- A property of every tree, if a tree has it whenever all its operands have it. -/
theorem reading_induction {P : Tree → Prop}
    (step : ∀ t, (∀ r, t.reading? = .ok r → ∀ x ∈ r.operands, P x) → P t) (t : Tree) : P t := by
  -- what a tree stands for may be a child of it, which the induction has to keep in view
  refine (Rose.induction (P := fun t => P t ∧ P (content t)) (fun h ts ih => ?_) t).1
  have hshown : ∀ u ∈ shown (.node h ts), P u ∧ P (content u) := fun u hu =>
    ih u (List.mem_of_mem_take hu)
  have htop : P (.node h ts) := step _ fun r hr x hx => by
    obtain ⟨u, hu, rfl | rfl⟩ := mem_operands hr hx
    · exact (hshown _ hu).1
    · exact (hshown _ hu).2
  refine ⟨htop, ?_⟩
  rcases content_cases (.node h ts) with he | hmem
  · rwa [he]
  · exact (hshown _ hmem).1

end Tree

/-! ### Soundness -/

/-- Whether the form of a node allows its kind. -/
def Head.Sound (h : Head) : Prop := h.form.allows h.kind

/-- Only a `minus` leaves its form open. -/
theorem Head.Sound.form_eq {h : Head} (hs : h.Sound) (hkind : h.kind ≠ .minus) :
    h.form = .ofKind h.kind := by
  have hkinds (form : Form) : ∀ kind ∈ form.kinds, kind ≠ .minus → form = .ofKind kind := by
    cases form <;> decide
  have hmem : h.kind ∈ h.form.kinds := by simpa [Sound, Form.allows] using hs
  exact hkinds h.form h.kind hmem hkind

def Tree.IsSound (t : Tree) : Prop := t.head.Sound

/-! ### Refusals -/

/-- Why a node is refused whatever its operands render to, if it is: there is no zeroth root, and
what is unknown has no meaning. -/
def Reading.refusal? : Reading Tree → Option Fault
  | .root degree _ => if degree.isLiteral 0 then some .zerothRoot else none
  | .unknown => some .unknownNode
  | _ => none

/-- Why a tree is refused for what its top is, if it is. -/
def Tree.refusal? (t : Tree) : Option Fault :=
  match t.reading? with
  | .ok reading => reading.refusal?
  | .error fault => some fault

end MathTree

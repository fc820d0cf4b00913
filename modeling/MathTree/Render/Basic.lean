import MathTree.Reading

/-!
# Rendering

A `Renderer β` says what to make of a node, from its reading with every operand given as a tree and
what that tree renders to, and what to make of a node that cannot be read.  `Tree.render` applies it
from the leaves up.  `Tree.render_eq` is its equation: a tree renders to what the renderer makes of
its reading.
-/

namespace MathTree

/-- An operand, and what it renders to. -/
structure Operand (β : Type) where
  tree : Tree
  result : β

/-- What to make of the nodes of a tree. -/
structure Renderer (β : Type) where
  /-- What becomes of a node that cannot be read. -/
  refuse : Fault → β
  /-- What becomes of a node that is read. -/
  form : Reading (Operand β) → β

/-- One node, from its subtrees and what they render to. -/
def Renderer.step {β : Type} (R : Renderer β) (h : Head)
    (results : List (Tree × Slot (Operand β))) : Slot (Operand β) :=
  let shown := (results.map (·.2)).take (h.shown results.length)
  let itself : Operand β :=
    { tree := .node h (results.map (·.1))
      result :=
        match h.reading? (·.tree.isLiteral 2) shown with
        | .ok reading => R.form reading
        | .error fault => R.refuse fault }
  { itself := itself
    content := if h.kind.isTransparent then (shown.head?.map Slot.itself).getD itself else itself }

namespace Tree

variable {β : Type}

/-- A tree and what it stands for, both rendered. -/
def rendered (R : Renderer β) : Tree → Slot (Operand β) := Rose.para R.step

/-- What a tree renders to. -/
def render (R : Renderer β) (t : Tree) : β := (t.rendered R).itself.result

/-- A tree as an operand. -/
def operand (R : Renderer β) (t : Tree) : Operand β := ⟨t, t.render R⟩

theorem rendered_node (R : Renderer β) (h : Head) (ts : List Tree) :
    rendered R (.node h ts) = R.step h (ts.map fun t => (t, t.rendered R)) := Rose.para_node ..

/-- The subtrees that a node shows, rendered. -/
theorem take_rendered (R : Renderer β) (n : Nat) (ts : List Tree) :
    ((ts.map fun t => (t, t.rendered R)).map (·.2)).take n = (ts.take n).map (·.rendered R) := by
  simp [List.map_take, Function.comp_def]

theorem itself_rendered (R : Renderer β) (t : Tree) : (t.rendered R).itself = t.operand R := by
  have tree : (t.rendered R).itself.tree = t := by
    cases t
    simp [rendered_node, Renderer.step, Function.comp_def]
  rw [operand, render]
  exact congrArg (Operand.mk · _) tree

theorem content_rendered (R : Renderer β) (t : Tree) :
    (t.rendered R).content = t.content.operand R := by
  have key : (t.rendered R).content
      = if t.kind.isTransparent then
          ((t.shown.map (·.rendered R)).head?.map Slot.itself).getD (t.rendered R).itself
        else (t.rendered R).itself := by
    cases t
    simp only [rendered_node, Renderer.step, take_rendered, List.length_map]
    rfl
  rw [key, content]
  split
  · cases t.shown <;> simp [itself_rendered]
  · exact itself_rendered R t

theorem rendered_eq (R : Renderer β) (t : Tree) : t.rendered R = t.slot.map (operand R) := by
  rw [slot, Slot.map, ← itself_rendered, ← content_rendered]

/-- A tree renders to what the renderer makes of its reading. -/
theorem render_eq (R : Renderer β) (t : Tree) :
    t.render R = match t.reading? with
      | .ok reading => R.form (reading.map (operand R))
      | .error fault => R.refuse fault := by
  have key : t.render R =
      match t.head.reading? (·.tree.isLiteral 2) (t.shown.map (·.rendered R)) with
      | .ok reading => R.form reading
      | .error fault => R.refuse fault := by
    cases t
    simp only [render, rendered_node, Renderer.step, take_rendered, List.length_map]
    rfl
  have slots : t.shown.map (·.rendered R) = (t.shown.map slot).map (Slot.map (operand R)) := by
    simp [rendered_eq]
  have read : t.head.reading? (·.tree.isLiteral 2) (t.shown.map (·.rendered R))
      = t.reading?.map (Reading.map (operand R)) := by
    rw [slots, reading?]
    exact Head.reading?_map t.head (operand R) (fun _ => rfl) _
  rw [key, read]
  cases t.reading? <;> rfl

end Tree

end MathTree

/-!
# Rose trees

A `Rose α` is a label of type `α` with a list of subtrees.  Every function on rose trees of this
library is a `Rose.para`: what it does at a node depends on the label and, for each subtree, on the
subtree and on its result.  `Rose.para_node` is its one equation, and `Rose.induction` the matching
principle of proof.
-/

namespace MathTree

/-- A label with a list of subtrees. -/
inductive Rose (α : Type) where
  | node (label : α) (children : List (Rose α))
  deriving Repr

namespace Rose

variable {α β : Type}

def label : Rose α → α
  | .node a _ => a

def children : Rose α → List (Rose α)
  | .node _ ts => ts

mutual

/-- The function that takes `step` at every node, with the subtrees and their results. -/
def para (step : α → List (Rose α × β) → β) : Rose α → β
  | .node a ts => step a (paraAll step ts)

/-- Each tree of a list with its result. -/
def paraAll (step : α → List (Rose α × β) → β) : List (Rose α) → List (Rose α × β)
  | [] => []
  | t :: ts => (t, para step t) :: paraAll step ts

end

theorem paraAll_eq_map (step : α → List (Rose α × β) → β) (ts : List (Rose α)) :
    paraAll step ts = ts.map fun t => (t, para step t) := by
  induction ts with
  | nil => rfl
  | cons t ts ih => simp [paraAll, ih]

theorem para_node (step : α → List (Rose α × β) → β) (a : α) (ts : List (Rose α)) :
    para step (.node a ts) = step a (ts.map fun t => (t, para step t)) := by
  rw [para, paraAll_eq_map]

/-- A property of every tree, if a node has it whenever all its subtrees have it. -/
theorem induction {P : Rose α → Prop}
    (node : ∀ a ts, (∀ t ∈ ts, P t) → P (.node a ts)) (t : Rose α) : P t :=
  Rose.rec (motive_1 := P) (motive_2 := fun ts => ∀ t ∈ ts, P t) (fun a ts ih => node a ts ih)
    (fun _ h => absurd h List.not_mem_nil)
    (fun t ts ht hts u hu => by
      rcases List.mem_cons.1 hu with rfl | hu
      · exact ht
      · exact hts u hu)
    t

/-- The function that takes `step` at every node, with the results of the subtrees. -/
def fold (step : α → List β → β) : Rose α → β := para fun a results => step a (results.map (·.2))

theorem fold_node (step : α → List β → β) (a : α) (ts : List (Rose α)) :
    fold step (.node a ts) = step a (ts.map (fold step)) := by
  simp [fold, para_node, Function.comp_def]

/-- The same tree with other labels. -/
def map (f : α → β) : Rose α → Rose β := fold fun a ts => .node (f a) ts

theorem map_node (f : α → β) (a : α) (ts : List (Rose α)) :
    map f (.node a ts) = .node (f a) (ts.map (map f)) := fold_node _ a ts

/-- All labels, each before those of its subtrees. -/
def toList : Rose α → List α := fold fun a labels => a :: labels.flatten

theorem toList_node (a : α) (ts : List (Rose α)) :
    toList (.node a ts) = a :: (ts.map toList).flatten := fold_node _ a ts

end Rose

end MathTree

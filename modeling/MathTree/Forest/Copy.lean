import MathTree.Forest.Edit

/-!
# Copies

`Edit.copy` copies a subtree: every node but the placeholder becomes a new one that says the same of
itself and is anchored to the same container, with no listeners, and the top has no parent.
`Edit.substitute` puts copies of one subtree in the place of the identifiers of a name in another.
-/

namespace MathTree

/-- Writes a node into its children as their parent, save into the placeholder. -/
def Forest.claim (f : Forest) (p : NodeId) (children : List NodeId) : Forest :=
  (children.filter (· ≠ .placeholder)).foldl
    (fun f child => f.modify child ({ · with parent := some p })) f

namespace Edit

/-- A new node with the head and the anchor of another, above children that are not held yet. -/
def copyNode (n : NodeId) (children : List NodeId) : Edit NodeId := do
  let r := (← get).get n
  let copy ← modifyGet (·.grow { head := r.head, container := r.container, children := children })
  modify (·.claim copy children)
  return copy

/-- Copies what is laid out below a node. -/
def copySpine : Rose NodeId → Edit NodeId :=
  Rose.fold fun n copies =>
    if n = .placeholder then pure n
    else do copyNode n (← copies.mapM fun copy => copy)

/-- Copies a subtree. -/
def copy (n : NodeId) : Edit NodeId := do copySpine ((← get).spine n)

/-- What a substitution does at one child of a node: an identifier of the name is replaced, a bound
variable is left alone, and any other node that can have children is searched by `deeper`. -/
def substituteAt (name : String) (argument p : NodeId) (position : Nat) (child : NodeId)
    (deeper : Edit Nat) : Edit Nat := do
  let h := (← get).head child
  match h.kind with
  | .qualifier .bvar => return 0
  | .name =>
    match h.name with
    | .ok found =>
      if found = name then
        discard <| replaceAt p position (← copy argument)
        return 1
      else return 0
    | .error _ => return 0
  | _ => if h.isLeaf then return 0 else deeper

/-- Substitutes in what is laid out below a node, at the children that it shows. -/
def substituteSpine (name : String) (argument : NodeId) : Rose NodeId → Edit Nat :=
  Rose.para fun p below => do
    let shown := below.take ((← get).childCount p)
    let counts ← shown.zipIdx.mapM fun ((child, deeper), position) =>
      substituteAt name argument p position child.label deeper
    return counts.foldr (· + ·) 0

/-- Puts a copy of the argument in the place of every identifier of a name below a node, and counts
them. -/
def substitute (n : NodeId) (name : String) (argument : NodeId) : Edit Nat := do
  substituteSpine name argument ((← get).spine n)

end Edit

end MathTree

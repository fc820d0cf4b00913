import MathTree.Tree

/-!
# Forests

A `Forest` holds the nodes of all trees that have been made, each as a `Record`: what the node says of
itself, the children it holds, the node that holds it, its listeners and the container it is anchored
to.  Record zero is the placeholder, which all trees share.  `Forest.spine` lays out what stands below
a node as a tree of names, and from it come `Forest.tree`, the expression of a node, and
`Forest.members`, the nodes of its subtree.
-/

namespace MathTree

/-- A receiver of notifications, by its number. -/
structure ListenerId where
  index : Nat
  deriving DecidableEq, Repr

/-- A container that trees are anchored to, by its number. -/
structure ContainerId where
  index : Nat
  deriving DecidableEq, Repr

/-- A node of a forest. -/
structure Record where
  head : Head
  parent : Option NodeId := none
  container : Option ContainerId := none
  listeners : List ListenerId := []
  children : List NodeId := []
  deriving DecidableEq, Repr

/-- The record of the placeholder: a strict unknown node on its own. -/
def Record.placeholder : Record := { head := .ofKind .unknown }

/-- The record with one more listener, unless it has that one. -/
def Record.hear (r : Record) (listener : ListenerId) : Record :=
  if listener ∈ r.listeners then r else { r with listeners := r.listeners ++ [listener] }

/-- The record without a listener. -/
def Record.unhear (r : Record) (listener : ListenerId) : Record :=
  { r with listeners := r.listeners.filter (· ≠ listener) }

/-- A document of a level and version.  Once it is closed, the nodes anchored to it read as
anchored to nothing. -/
structure Container where
  level : Nat
  version : Nat
  isOpen : Bool := true
  deriving DecidableEq, Repr

/-- The respects in which a node can change. -/
inductive Aspect where
  | kind | strict | parent
  | field (field : Field)
  | boundCount | caseCount | fallback
  deriving DecidableEq, Repr

/-- What a listener is told, with what it can then read: the number of children that the changed
node shows, or the parent of the node that was added or removed. -/
inductive Notice where
  | changed (listener : ListenerId) (source : NodeId) (aspect : Aspect) (before after : Datum)
    (children : Nat)
  | added (listener : ListenerId) (node : NodeId) (parent : Option NodeId)
  | removed (listener : ListenerId) (node : NodeId) (parent : Option NodeId)
  deriving DecidableEq, Repr

/-- The nodes that a notice speaks of. -/
def Notice.nodes : Notice → List NodeId
  | .changed _ source _ before after _ => source :: (before.node?.toList ++ after.node?.toList)
  | .added _ node parent | .removed _ node parent => node :: parent.toList

/-- All nodes and containers, and the notices given so far. -/
structure Forest where
  records : Array Record
  containers : Array Container := #[]
  journal : Array Notice := #[]
  deriving Repr

namespace Forest

/-- The forest with nothing but the placeholder. -/
def start : Forest := { records := #[.placeholder] }

/-- The record of a node. -/
def get (f : Forest) (n : NodeId) : Record := f.records[n.index]?.getD .placeholder

/-- Whether a node has been made. -/
def Has (f : Forest) (n : NodeId) : Prop := n.index < f.records.size

instance (f : Forest) (n : NodeId) : Decidable (f.Has n) := inferInstanceAs (Decidable (_ < _))

/-- Changes the record of a node. -/
def modify (f : Forest) (n : NodeId) (change : Record → Record) : Forest :=
  { f with records := f.records.modify n.index change }

/-- Adds a record, and names its node. -/
def grow (f : Forest) (r : Record) : NodeId × Forest :=
  (⟨f.records.size⟩, { f with records := f.records.push r })

/-! ### Reading -/

def head (f : Forest) (n : NodeId) : Head := (f.get n).head

def kind (f : Forest) (n : NodeId) : Kind := (f.head n).kind

/-- The children that a node holds. -/
def children (f : Forest) (n : NodeId) : List NodeId := (f.get n).children

def parent (f : Forest) (n : NodeId) : Option NodeId := (f.get n).parent

/-- The number of children that a node shows. -/
def childCount (f : Forest) (n : NodeId) : Nat := (f.head n).shown (f.children n).length

/-- The children that a node shows. -/
def shown (f : Forest) (n : NodeId) : List NodeId := (f.children n).take (f.childCount n)

/-- The child at a position, among those that are shown. -/
def childAt (f : Forest) (n : NodeId) (position : Nat) : Except Fault NodeId :=
  match (f.shown n)[position]? with
  | some child => .ok child
  | none => .error (.outOfRange position (f.childCount n))

/-- The first position of a child among those that a node holds. -/
def positionOf (f : Forest) (n child : NodeId) : Option Nat := (f.children n).idxOf? child

/-- The container of a node, if it is anchored to one that is open. -/
def container? (f : Forest) (n : NodeId) : Option Container :=
  match (f.get n).container with
  | some c => (f.containers[c.index]?).filter (·.isOpen)
  | none => none

/-- What a node has in one respect. -/
def datum (f : Forest) (n : NodeId) : Aspect → Datum
  | .kind => .kind (f.kind n)
  | .strict => .flag (f.head n).strict
  | .parent => .ofNode? (f.parent n)
  | .field field => ((f.head n).datum? field).getD .absent
  | .boundCount => match (f.head n).boundCount with
    | .ok bound => .count bound
    | .error _ => .absent
  | .caseCount => match (f.head n).caseCount with
    | .ok cases => .count cases
    | .error _ => .absent
  | .fallback => match (f.head n).hasFallback with
    | .ok fallback => .flag fallback
    | .error _ => .absent

/-! ### Walks

No path through a forest is longer than the forest has records, which bounds the walks below. -/

/-- What stands below a node, down to a depth. -/
def spineTo (f : Forest) : (depth : Nat) → NodeId → Rose NodeId
  | 0, n => .node n []
  | depth + 1, n => .node n ((f.children n).map (f.spineTo depth))

/-- What stands below a node, as a tree of names. -/
def spine (f : Forest) (n : NodeId) : Rose NodeId := f.spineTo f.records.size n

/-- The expression of a node. -/
def tree (f : Forest) (n : NodeId) : Tree := (f.spine n).map f.head

/-- The nodes of a subtree, each before its children, without the placeholder. -/
def members (f : Forest) (n : NodeId) : List NodeId :=
  (f.spine n).toList.filter (· ≠ .placeholder)

/-- A node and the nodes above it, up to a height. -/
def lineageTo (f : Forest) : (height : Nat) → NodeId → List NodeId
  | 0, n => [n]
  | height + 1, n => n :: (f.parent n).elim [] (f.lineageTo height)

/-- A node and the nodes above it. -/
def lineage (f : Forest) (n : NodeId) : List NodeId := f.lineageTo f.records.size n

/-! ### Reading after a change -/

variable (f : Forest) {m n : NodeId}

theorem get_of_not_has (h : ¬ f.Has n) : f.get n = .placeholder := by
  unfold Has at h
  simp [get, Nat.le_of_not_lt h]

theorem get_modify (change : Record → Record) :
    (f.modify n change).get m = if m = n ∧ f.Has n then change (f.get m) else f.get m := by
  by_cases hm : m = n
  · subst hm
    by_cases h : m.index < f.records.size
    · simp [get, modify, Has, h, Array.getElem_modify]
    · simp [get, modify, Has, h]
  · have hi : n.index ≠ m.index := fun e => hm (NodeId.ext e.symm)
    simp [get, modify, Array.getElem?_modify, hi, hm]

theorem has_modify (change : Record → Record) : (f.modify n change).Has m ↔ f.Has m := by
  simp [Has, modify]

theorem get_grow (r : Record) :
    (f.grow r).2.get m = if m = (f.grow r).1 then r else f.get m := by
  by_cases h : m = (f.grow r).1
  · subst h
    simp [get, grow]
  · have hi : m.index ≠ f.records.size := fun e => h (NodeId.ext e)
    rw [if_neg h]
    simp only [get, grow, Array.getElem?_push, if_neg hi]

theorem has_grow (r : Record) : (f.grow r).2.Has m ↔ f.Has m ∨ m = (f.grow r).1 := by
  simp only [Has, grow, Array.size_push, NodeId.ext_iff]
  omega

end Forest

end MathTree

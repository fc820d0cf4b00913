import MathTree.Head
import MathTree.Rose

/-!
# Expression trees

A `Tree` is an expression as it can be read off a forest: heads of nodes, and below each the nodes it
holds.  A strict node may hold more children than it shows (`Tree.shown`), and whatever reads a tree
sees only those.  `Tree.same` is equality of structure.
-/

namespace MathTree

/-- An expression with all that its nodes say of themselves. -/
abbrev Tree := Rose Head

namespace Tree

/-- A tree of one node. -/
def leaf (h : Head) : Tree := .node h []

def head (t : Tree) : Head := t.label

def kind (t : Tree) : Kind := t.head.kind

/-- The number of children that a tree shows. -/
def childCount (t : Tree) : Nat := t.head.shown t.children.length

/-- The children that a tree shows, in order. -/
def shown (t : Tree) : List Tree := t.children.take t.childCount

/-- The tree that a `degree` or a `logbase` stands for: its content.  Any other stands for itself. -/
def content (t : Tree) : Tree := if t.kind.isTransparent then t.shown.head?.getD t else t

def isLiteral (t : Tree) (value : Int) : Bool := t.head.isLiteral value

/-- Whether a tree is a root of degree two, the degree given directly or by a qualifier. -/
def isSquareRoot (t : Tree) : Bool :=
  t.kind == .root && t.childCount == 2 && t.shown.head?.any (·.content.isLiteral 2)

/-- Whether a tree is a `minus` with a single operand. -/
def isNegation (t : Tree) : Bool := t.kind == .minus && t.childCount == 1

/-- Function `step` on the head of every node, the number of children it holds, and the results of
the children it shows. -/
def foldShown {β : Type} (step : Head → List β → β) : Tree → β :=
  Rose.fold fun h results => step h (results.take (h.shown results.length))

theorem foldShown_node {β : Type} (step : Head → List β → β) (h : Head) (ts : List Tree) :
    foldShown step (.node h ts)
      = step h ((ts.take (h.shown ts.length)).map (foldShown step)) := by
  simp [foldShown, Rose.fold_node, List.map_take]

/-- How many nodes of a kind a tree shows, itself included. -/
def countKind (kind : Kind) : Tree → Nat :=
  foldShown fun h counts => (if h.kind = kind then 1 else 0) + counts.foldr (· + ·) 0

/-- Whether a number of a tree has units. -/
def usesUnits : Tree → Bool := foldShown fun h uses => h.units?.isSome || uses.any id

/-- Whether the lists have the same length and each test accepts the tree at its place. -/
def sameAll : List (Tree → Bool) → List Tree → Bool
  | [], [] => true
  | test :: tests, t :: ts => test t && sameAll tests ts
  | _, _ => false

/-- Whether two trees say the same of themselves, node by node, in what they hold. -/
def same : Tree → Tree → Bool :=
  Rose.fold fun h tests t => h.same t.head && sameAll tests t.children

theorem same_node (h : Head) (ts : List Tree) (t : Tree) :
    same (.node h ts) t = (h.same t.head && sameAll (ts.map same) t.children) := by
  simp [same, Rose.fold_node]

end Tree

end MathTree

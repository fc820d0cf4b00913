import MathTree.Kind
import MathTree.Number.Binary64

/-!
# Data

The names of nodes, and the values that notifications carry: what a node had or has in one respect.
-/

namespace MathTree

open MathTree.Number

/-- A node of a forest, by its number.  Number zero is the placeholder that all trees share. -/
@[ext]
structure NodeId where
  index : Nat
  deriving DecidableEq, Repr

/-- The placeholder for absent or unrecognised nodes. -/
def NodeId.placeholder : NodeId := ⟨0⟩

/-- What a node has in one respect. -/
inductive Datum where
  | absent
  | flag (value : Bool)
  | integer (value : Int32)
  | real (value : Binary64)
  | count (value : Nat)
  | text (value : String)
  | kind (value : Kind)
  | node (value : NodeId)
  deriving DecidableEq, Repr

namespace Datum

def ofInteger? (value : Option Int32) : Datum := value.elim absent integer

def ofText? (value : Option String) : Datum := value.elim absent text

def ofNode? (value : Option NodeId) : Datum := value.elim absent node

/-- The node that a datum is, if it is one. -/
def node? : Datum → Option NodeId
  | .node value => some value
  | _ => none

end Datum

end MathTree

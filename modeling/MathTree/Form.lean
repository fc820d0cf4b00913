import MathTree.Kind

/-!
# Forms of nodes

The form of a node fixes which kinds it may take and how many children it may hold.  A node keeps
its form for life and may change its kind within `Form.kinds`.  `Form.ofKind` is the form of a node
that is made from its kind alone, and `Form.capacity` the number of children at which a strict node
is full.
-/

namespace MathTree

/-- What a node is made to hold. -/
inductive Form where
  | integer | real | rational | exponential
  | constant
  | identifier
  | csymbol
  | unknown
  /-- An associative operator with any number of operands. -/
  | nary
  | binary
  | unary
  | lambda
  | piecewise
  | qualifier
  | call
  deriving DecidableEq, Repr

namespace Form

/-- Every form once, in the order of the vocabulary. -/
def all : List Form :=
  [.integer, .real, .rational, .exponential, .constant, .identifier, .csymbol, .unknown, .nary,
   .binary, .unary, .lambda, .piecewise, .qualifier, .call]

/-- The word by which messages name a form. -/
def label : Form → String
  | .integer => "Integer" | .real => "Real" | .rational => "Rational"
  | .exponential => "Exponential"
  | .constant => "Constant" | .identifier => "Ci" | .csymbol => "CSymbol" | .unknown => "Unknown"
  | .nary => "NAry" | .binary => "Binary" | .unary => "Unary"
  | .lambda => "Lambda" | .piecewise => "Piecewise" | .qualifier => "Qualifier"
  | .call => "FunctionCall"

/-- The form of a fresh node.  A fresh `minus` is a difference: negation is asked for by form. -/
def ofKind : Kind → Form
  | .plus | .times | .connective _ => .nary
  | .minus | .divide | .power | .root | .log | .delay | .relation _ => .binary
  | .not | .elementary _ => .unary
  | .integer => .integer
  | .real => .real
  | .rational => .rational
  | .exponential => .exponential
  | .constant _ => .constant
  | .name => .identifier
  | .time | .avogadro => .csymbol
  | .lambda => .lambda
  | .piecewise => .piecewise
  | .call => .call
  | .qualifier _ => .qualifier
  | .unknown => .unknown

/-- The kinds that a node of a form may take. -/
def kinds : Form → List Kind
  | .integer => [.integer]
  | .real => [.real]
  | .rational => [.rational]
  | .exponential => [.exponential]
  | .constant => Constant.all.map .constant
  | .identifier => [.name]
  | .csymbol => [.time, .avogadro]
  | .unknown => [.unknown]
  | .nary => [.plus, .times] ++ Connective.all.map .connective
  | .binary => [.minus, .divide, .power, .root, .log, .delay] ++ Relation.all.map .relation
  | .unary => Elementary.all.map .elementary ++ [.not, .minus]
  | .lambda => [.lambda]
  | .piecewise => [.piecewise]
  | .qualifier => Qualifier.all.map .qualifier
  | .call => [.call]

/-- Whether a node of this form may take a kind. -/
def allows (form : Form) (kind : Kind) : Bool := form.kinds.contains kind

/-- The forms whose nodes never have children. -/
def isLeaf : Form → Bool
  | .integer | .real | .rational | .exponential | .constant | .identifier | .csymbol | .unknown =>
    true
  | .nary | .binary | .unary | .lambda | .piecewise | .qualifier | .call => false

/-- The number of children at which a strict node is full, if there is one.  A piece holds its value
and its condition; the other qualifiers hold one child. -/
def capacity : Form → Kind → Option Nat
  | .binary, _ => some 2
  | .unary, _ => some 1
  | .qualifier, .qualifier .piece => some 2
  | .qualifier, _ => some 1
  | .nary, _ | .lambda, _ | .piecewise, _ | .call, _ => none
  | _, _ => some 0

/-! ### A form and its kinds -/

theorem allows_ofKind (kind : Kind) : (ofKind kind).allows kind = true := by
  cases kind with
  | relation r => cases r <;> rfl
  | connective c => cases c <;> rfl
  | constant c => cases c <;> rfl
  | elementary f => cases f <;> rfl
  | qualifier q => cases q <;> rfl
  | _ => rfl

theorem capacity_of_isLeaf {form : Form} (h : form.isLeaf = true) (kind : Kind) :
    form.capacity kind = some 0 := by
  cases form <;> first | rfl | cases h

end Form

end MathTree

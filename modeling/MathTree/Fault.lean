import MathTree.Form

/-!
# Faults

Every way in which a tree refuses an operation or a rendering.  A `Fault` holds the cause, and
`Fault.message` is the one place where a cause becomes words.
-/

namespace MathTree

/-- The values that a node may carry beside its kind and its children. -/
inductive Field where
  | id | style | styleClass
  | integer | real
  | numerator | denominator
  | mantissa | exponent
  | units
  | name | definitionUrl | encoding
  deriving DecidableEq, Repr

namespace Field

/-- The word by which messages name a field that is read. -/
def label : Field → String
  | .id => "id" | .style => "style" | .styleClass => "class"
  | .integer => "integer" | .real => "real"
  | .numerator => "numerator" | .denominator => "denominator"
  | .mantissa => "mantissa" | .exponent => "exponent"
  | .units => "units"
  | .name => "name" | .definitionUrl => "definitionURL" | .encoding => "encoding"

/-- The word by which messages name a field that is written. -/
def writeLabel : Field → String
  | .definitionUrl => "set_definition_url"
  | field => "set_" ++ field.label

end Field

/-- What may be asked of a node that only nodes of some forms can do. -/
inductive Request where
  | read (field : Field)
  | write (field : Field)
  | left | right | operand
  | setLeft | setRight | setOperand
  | boundCount | caseCount | hasFallback
  | leftComb
  deriving DecidableEq, Repr

/-- The word by which messages name a request. -/
def Request.label : Request → String
  | .read field => field.label
  | .write field => field.writeLabel
  | .left => "left_child" | .right => "right_child" | .operand => "child"
  | .setLeft => "set_left_child" | .setRight => "set_right_child" | .setOperand => "set_child"
  | .boundCount => "bvar_count" | .caseCount => "piece_count" | .hasFallback => "has_otherwise"
  | .leftComb => "reduce_to_binary"

/-- The cause of a refusal. -/
inductive Fault where
  /-- A node of this kind needs a number of children and has another. -/
  | arity (kind : Kind) (expected found : Nat)
  | outOfRange (position count : Nat)
  /-- A strict node was asked for a field that is not set. -/
  | unset (field : Field) (kind : Kind)
  | kindRefused (kind : Kind) (form : Form)
  /-- A node of this kind never has children. -/
  | childless (kind : Kind)
  | cycle
  | unknownNode
  | unsupported (request : Request) (kind : Kind)
  | zerothRoot
  | notRelational (kind : Kind)
  deriving DecidableEq, Repr

/-- What a fault says. -/
def Fault.message : Fault → String
  | .arity kind expected found =>
    kind.label ++ " node expects " ++ toString expected ++ " children, but has " ++ toString found
  | .outOfRange position count =>
    "child index " ++ toString position ++ " out of range for a node with " ++ toString count
      ++ " children"
  | .unset field kind =>
    "property `" ++ field.label ++ "` is not defined on this " ++ kind.label ++ " node"
  | .kindRefused kind form => "type " ++ kind.label ++ " is not allowed for " ++ form.label ++ " nodes"
  | .childless kind => kind.label ++ " nodes cannot have children"
  | .cycle => "a node cannot become a descendant of itself"
  | .unknownNode => "the unknown placeholder node cannot be rendered"
  | .unsupported request kind =>
    "`" ++ request.label ++ "` is not supported for " ++ kind.label ++ " nodes"
  | .zerothRoot => "invalid argument: cannot take the zeroth root"
  | .notRelational kind => "invalid argument: " ++ kind.label ++ " is not a relational operator"

end MathTree

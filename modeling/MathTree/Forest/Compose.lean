import MathTree.Forest.Copy
import MathTree.Forest.Operand

/-!
# Compositions

A `Recipe` says how to make a new subtree out of others, such as their sum or a root.
`Edit.compose` follows it on copies, so that what it is made from stays where it is.
-/

namespace MathTree

/-- How to make a subtree from others. -/
inductive Recipe where
  | sum (terms : List NodeId)
  | product (factors : List NodeId)
  | connective (c : Connective) (operands : List NodeId)
  | difference (left right : NodeId)
  | negation (operand : NodeId)
  | quotient (numerator denominator : NodeId)
  /-- A division of two literals. -/
  | fraction (numerator denominator : Int32)
  | power (base exponent : NodeId)
  /-- A power with a literal exponent. -/
  | literalPower (base : NodeId) (exponent : Int32)
  | root (degree radicand : NodeId)
  | squareRoot (radicand : NodeId)
  | logarithm (base operand : NodeId)
  /-- The logarithm to the base ten. -/
  | commonLogarithm (operand : NodeId)
  | exponential (exponent : NodeId)
  | delay (operand lag : NodeId)
  /-- A relation of the given kind. -/
  | relation (kind : Kind) (left right : NodeId)
  | not (operand : NodeId)
  | piecewise (cases : List (NodeId × NodeId)) (fallback : Option NodeId)
  | lambda (parameters : List NodeId) (body : NodeId)
  /-- An associative operator with many operands as nested applications to two. -/
  | leftComb (node : NodeId)
  deriving DecidableEq, Repr

/-- The nodes that a recipe is given. -/
def Recipe.nodes : Recipe → List NodeId
  | .sum terms | .product terms | .connective _ terms => terms
  | .difference m n | .quotient m n | .power m n | .root m n | .logarithm m n | .delay m n => [m, n]
  | .relation _ m n => [m, n]
  | .negation n | .literalPower n _ | .squareRoot n | .commonLogarithm n | .exponential n => [n]
  | .not n | .leftComb n => [n]
  | .fraction .. => []
  | .piecewise cases fallback => cases.flatMap (fun (m, n) => [m, n]) ++ fallback.toList
  | .lambda parameters body => parameters ++ [body]

namespace Edit

/-- A new node above copies of others. -/
def compound (form : Form) (kind : Kind) (operands : List NodeId) : Edit NodeId := do
  let node ← plant (.ofForm form kind)
  operands.forM fun operand => do append node (← copy operand)
  return node

/-- An operator applied to what has been made so far and a copy of one more operand. -/
def combine (kind : Kind) (reduced operand : NodeId) : Edit NodeId := do
  let next ← plant (.ofForm .nary kind)
  append next reduced
  append next (← copy operand)
  return next

/-- The operands of a node nested from the left, two in each application.  A node with two operands
or fewer is copied. -/
def leftComb (node : NodeId) : Edit NodeId := do
  let f ← get
  let kind := f.kind node
  if (f.head node).form ≠ .nary then throw (.unsupported .leftComb kind)
  match f.shown node with
  | first :: second :: third :: others => do
    let reduced ← compound .nary kind [first, second]
    (third :: others).foldlM (combine kind) reduced
  | _ => copy node

/-- A new `piecewise` of copied cases and a copied fallback. -/
def composePiecewise (cases : List (NodeId × NodeId)) (fallback : Option NodeId) : Edit NodeId := do
  let node ← plant (.ofKind .piecewise)
  cases.forM fun (value, condition) => do addCase node (← copy value) (← copy condition)
  fallback.forM fun value => do setFallback node (← copy value)
  return node

/-- A new `lambda` of copied parameters over a copied body. -/
def composeLambda (parameters : List NodeId) (body : NodeId) : Edit NodeId := do
  let node ← plant (.ofKind .lambda)
  parameters.forM fun parameter => do addBound node (← copy parameter)
  setBody node (← copy body)
  return node

/-- Makes a new subtree. -/
def compose : Recipe → Edit NodeId
  | .sum terms => compound .nary .plus terms
  | .product factors => compound .nary .times factors
  | .connective c operands => compound .nary (.connective c) operands
  | .difference left right => compound .binary .minus [left, right]
  | .negation operand => compound .unary .minus [operand]
  | .quotient numerator denominator => compound .binary .divide [numerator, denominator]
  | .fraction numerator denominator => do
    compound .binary .divide [← plant (.integer numerator), ← plant (.integer denominator)]
  | .power base exponent => compound .binary .power [base, exponent]
  | .literalPower base exponent => do compound .binary .power [base, ← plant (.integer exponent)]
  | .root degree radicand => compound .binary .root [degree, radicand]
  | .squareRoot radicand => do compound .binary .root [← plant (.integer 2), radicand]
  | .logarithm base operand => compound .binary .log [base, operand]
  | .commonLogarithm operand => do compound .binary .log [← plant (.integer 10), operand]
  | .exponential exponent => compound .unary (.elementary .exp) [exponent]
  | .delay operand lag => compound .binary .delay [operand, lag]
  | .relation kind left right => do
    if !kind.isRelational then throw (.notRelational kind)
    compound .binary kind [left, right]
  | .not operand => compound .unary .not [operand]
  | .piecewise cases fallback => composePiecewise cases fallback
  | .lambda parameters body => composeLambda parameters body
  | .leftComb node => leftComb node

end Edit

end MathTree

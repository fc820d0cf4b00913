import MathTree.Number.DecimalReading
import MathTree.Number.RealText
import MathTree.Render.Term

/-!
# Formulas

Infix text such as `k*(S1+S2)/V`.  Each operator decides from the kinds of its operands which of them
it brackets.  Powers of zero and one are simplified, and qualifiers are transparent: they stand for
their contents.
-/

namespace MathTree

open MathTree.Number

namespace Formula

/-- How formulas are written. -/
structure Style where
  /-- Write connectives as functions, `and(a, b)`, and not between their operands. -/
  logicAsCalls : Bool := false
  deriving DecidableEq, Repr

def brackets (text : String) : String := "(" ++ text ++ ")"

/-- An operand of a sum, a difference or a product. -/
def operand (x : Term) : Rendition := x.operand brackets

/-- A denominator, in which also a product is bracketed. -/
def denominator (x : Term) : Rendition :=
  let compound := match x.tree.kind with
    | .plus | .minus | .times => true
    | _ => false
  Term.enclosedIf brackets compound <$> x.result

/-- The factors with a sign between them, save those that are written as nothing. -/
def product (factors : List Term) : Rendition := do
  let texts ← factors.mapM operand
  return "*".intercalate (texts.filter (· ≠ ""))

/-- A function applied to arguments. -/
def call (name : String) (xs : List Term) : Rendition :=
  (fun text => name ++ brackets text) <$> Term.arguments xs

/-- Whether a text holds a sign that binds no tighter than a power. -/
def holdsOperator (text : String) : Bool :=
  text.toList.any fun c => c == '*' || c == '-' || c == '+' || c == '/' || c == '^'

/-- A power, of which the exponents that read as zero and as one are simplified. -/
def powerText (base exponent : String) : String :=
  let plain :=
    Term.enclosedIf brackets (holdsOperator base) base ++ "^"
      ++ Term.enclosedIf brackets (holdsOperator exponent) exponent
  match Decimal.ofText? exponent with
  | some e => if e.isZero then "1" else if e.same (.ofInt 1) then base else plain
  | none => plain

/-- The sign between the sides of a relation. -/
def relationSign : Relation → String
  | .eq => " == " | .neq => " != " | .lt => " < " | .leq => " <= " | .gt => " > " | .geq => " >= "

/-- The sign between the operands of a connective. -/
def connectiveSign : Connective → String
  | .and => " && " | .or => " || " | .xor => " XOR "

def connective (style : Style) (c : Connective) (xs : List Term) : Rendition :=
  if style.logicAsCalls then call c.elementName xs
  else
    (connectiveSign c).intercalate <$> xs.mapM (Term.bracketedAbove brackets 0)

/-- The name of a function in formulas. -/
def functionName : Elementary → String
  | .arcsin => "asin" | .arccos => "acos" | .arctan => "atan"
  | .arcsec => "asec" | .arccsc => "acsc" | .arccot => "acot"
  | .arcsinh => "asinh" | .arccosh => "acosh" | .arctanh => "atanh"
  | .arcsech => "asech" | .arccsch => "acsch" | .arccoth => "acoth"
  | .ceiling => "ceil"
  | .ln => "log"
  | f => f.elementName

def elementary (f : Elementary) (x : Term) : Rendition :=
  match f with
  | .factorial => (fun text => brackets text ++ "!") <$> x.result
  | f => call (functionName f) [x]

/-- A part of a fraction, bracketed if it is negative. -/
def fractionPart (n : Int32) : String := Term.enclosedIf brackets (n < 0) (intText n.toInt)

def constant : Constant → String
  | .e => "e" | .pi => "pi" | .truth => "true" | .falsity => "false"

/-- What a node with these operands is in a formula. -/
def form (style : Style) : Reading Term → Rendition
  | .sum terms => Term.chain brackets "+" terms
  | .difference left right => Term.chain brackets "-" [left, right]
  | .negation x => ("-" ++ ·) <$> operand x
  | .product factors => product factors
  | .quotient numerator divisor => do
    let above ← operand numerator
    let below ← denominator divisor
    return above ++ "/" ++ below
  | .power base exponent => do
    let base ← base.result
    let exponent ← exponent.result
    return powerText base exponent
  | .root degree radicand => do
    if degree.tree.isLiteral 0 then throw .zerothRoot
    let radicand ← radicand.result
    let degree ← degree.result
    return brackets radicand ++ "^" ++ brackets ("1/" ++ brackets degree)
  | .squareRoot radicand => (fun text => brackets text ++ "^(0.5)") <$> radicand.result
  | .logarithm base x => if base.tree.isLiteral 10 then call "log10" [x] else call "log" [base, x]
  | .delay name x lag => call name [x, lag]
  | .relation r left right => Term.relation brackets (relationSign r) left right
  | .connective c xs => connective style c xs
  | .not x => call "!" [x]
  | .elementary f x => elementary f x
  | .integer value _ => .ok (intText value.toInt)
  | .real value _ => .ok value.realText
  | .rational n d _ => .ok (fractionPart n ++ "/" ++ fractionPart d)
  | .exponential mantissa exponent _ =>
    .ok (if exponent = 0 then mantissa.realText
      else mantissa.decimalText ++ "E" ++ intText exponent.toInt)
  | .infinity negative => .ok (Binary64.infinity negative).realText
  | .constant c => .ok (constant c)
  | .avogadro name | .time name | .identifier name => .ok name
  | .lambda parts => call "lambda" parts
  | .piecewise parts => call "piecewise" parts
  | .call name xs => call name xs
  | .qualifier _ parts => Term.arguments parts
  | .unknown => .error .unknownNode

/-- How formulas are made from trees. -/
def renderer (style : Style) : Renderer Rendition := ⟨.error, form style⟩

end Formula

/-- A tree as a formula. -/
def Tree.formula (t : Tree) (style : Formula.Style := {}) : Rendition :=
  t.render (Formula.renderer style)

end MathTree

import MathTree.Number.RealText
import MathTree.Render.Term
import MathTree.Text.Mask

/-!
# LaTeX

Trees as the source of LaTeX formulas.  Names are masked unless the style says otherwise, brackets
grow with what they hold, and numbers in scientific form become powers of ten.
-/

namespace MathTree

open MathTree.Number

namespace Latex

/-- How LaTeX is written. -/
structure Style where
  /-- Let names stand for themselves even if they hold characters with a meaning. -/
  masked : Bool := true
  /-- In masked names, let lines break before an escaped character. -/
  hyphenate : Bool := false
  deriving DecidableEq, Repr

def brackets (text : String) : String := "\\left(" ++ text ++ "\\right)"

/-- A text as one argument. -/
def group (text : String) : String := "\x7b" ++ text ++ "\x7d"

/-- A command applied to an argument. -/
def command (name text : String) : String := "\\" ++ name ++ group text

/-- A text set upright. -/
def upright (text : String) : String := command "mathrm" text

/-- A name of the tree, masked if the style says so. -/
def nameText (style : Style) (name : String) : String :=
  if style.masked then Text.mask style.hyphenate name else name

/-- A real number, where a scientific form becomes a power of ten. -/
def numberText (x : Binary64) : String :=
  match splitScientific? x.realText with
  | none => x.realText
  | some (mantissa, exponent) =>
    let power := "10^" ++ group exponent
    if mantissa = "1" then power
    else if mantissa = "-1" then "-" ++ power
    else mantissa ++ "\\cdot " ++ power

/-- An operand of a sum, a difference or a product. -/
def operand (x : Term) : Rendition := x.operand brackets

/-- An operand that is bracketed if it shows more than a number of children. -/
def bracketsAbove (children : Nat) (x : Term) : Rendition := x.bracketedAbove brackets children

def product (factors : List Term) : Rendition := ("\\cdot ".intercalate ·) <$> factors.mapM operand

/-- The first of some parts, or nothing if there is none. -/
def first : List Term → Rendition
  | [] => .ok ""
  | x :: _ => x.result

/-- The sign between the sides of a relation. -/
def relationSign : Relation → String
  | .eq => " = " | .neq => " \\neq " | .lt => " < " | .leq => " \\leq " | .gt => " > "
  | .geq => " \\geq "

/-- The sign between the operands of a connective. -/
def connectiveSign : Connective → String
  | .and => "\\wedge " | .or => "\\lor " | .xor => "\\oplus "

/-- Whether LaTeX has a command for a function that is applied to its operand. -/
def hasCommand : Elementary → Bool
  | .sin | .cos | .tan | .sec | .csc | .cot | .sinh | .cosh | .tanh | .coth
  | .arcsin | .arccos | .arctan | .exp | .ln => true
  | _ => false

/-- A function applied to an operand.  A command takes it as its argument, bracketed if it is
compound; any other name is set upright and always followed by brackets. -/
def application (f : Elementary) (x : Term) : Rendition :=
  if hasCommand f then command f.elementName <$> bracketsAbove 1 x
  else (fun text => upright f.elementName ++ brackets text) <$> x.result

def elementary (f : Elementary) (x : Term) : Rendition :=
  match f with
  | .abs => (fun text => "\\left\\lvert " ++ text ++ "\\right\\rvert") <$> x.result
  | .ceiling => (fun text => "\\left\\lceil " ++ text ++ "\\right\\rceil ") <$> x.result
  | .floor => (fun text => "\\left\\lfloor " ++ text ++ "\\right\\rfloor ") <$> x.result
  | .factorial => (· ++ "!") <$> bracketsAbove 0 x
  | f => application f x

/-- The parameters in brackets, and the body: the last of the parts. -/
def lambda (parts : List Term) : Rendition := do
  let body ← match parts.getLast? with
    | some body => body.result
    | none => .ok ""
  let parameters ← Term.arguments parts.dropLast
  return "\\lambda" ++ brackets parameters ++ " = " ++ body

/-- The cases of a distinction, one a line. -/
def piecewise (parts : List Term) : Rendition := do
  let cases ← parts.mapM (·.result)
  return "\\begin" ++ group "dcases" ++ "\n" ++ "\\\\\n".intercalate cases ++ "\n\\end"
    ++ group "dcases"

/-- The parts of a qualifier. -/
def qualifier (q : Qualifier) (parts : List Term) : Rendition :=
  match q with
  | .bvar | .degree | .logbase => first parts
  | .piece => do
    let value ← first parts
    match parts[1]? with
    | some condition =>
      let condition ← condition.result
      return value ++ " & " ++ command "text" "if\\ " ++ " " ++ condition
    | none => return value
  | .otherwise => (fun value => value ++ " & " ++ command "text" "otherwise") <$> first parts

def constant : Constant → String
  | .e => upright "e" | .pi => "\\pi" | .truth => upright "true" | .falsity => upright "false"

/-- What a node with these operands is in LaTeX. -/
def form (style : Style) : Reading Term → Rendition
  | .sum terms => Term.chain brackets "+" terms
  | .difference left right => Term.chain brackets "-" [left, right]
  | .negation x => ("-" ++ ·) <$> operand x
  | .product factors => product factors
  | .quotient numerator denominator => do
    let above ← numerator.result
    let below ← denominator.result
    return "\\frac" ++ group above ++ group below
  | .power base exponent => do
    let value ← base.result
    let exponent ← exponent.result
    if exponent = "1" then return value
    return Term.enclosedIf brackets (2 ≤ base.tree.childCount) value ++ "^" ++ group exponent
  | .root degree radicand => do
    if degree.tree.isLiteral 0 then throw .zerothRoot
    let degree ← degree.result
    let radicand ← radicand.result
    return "\\sqrt[" ++ degree ++ "]" ++ group radicand
  | .squareRoot radicand => command "sqrt" <$> radicand.result
  | .logarithm base x => do
    let base ← base.result
    let x ← bracketsAbove 1 x
    return "\\log_" ++ group base ++ group x
  | .delay name x lag => do
    let x ← x.result
    let lag ← lag.result
    return upright (nameText style name) ++ brackets (x ++ ", " ++ lag)
  | .relation r left right => Term.relation brackets (relationSign r) left right
  | .connective c xs => (connectiveSign c).intercalate <$> xs.mapM (bracketsAbove 0)
  | .not x => ("\\neg " ++ ·) <$> bracketsAbove 0 x
  | .elementary f x => elementary f x
  | .integer value _ => .ok (intText value.toInt)
  | .real value _ => .ok (numberText value)
  | .rational n d _ => .ok ("\\frac" ++ group (intText n.toInt) ++ group (intText d.toInt))
  | .exponential mantissa exponent _ =>
    .ok (numberText mantissa ++ "\\cdot 10^" ++ group (intText exponent.toInt))
  | .infinity negative => .ok (minusIf negative ++ "\\infty")
  | .constant c => .ok (constant c)
  | .avogadro name | .identifier name => .ok (nameText style name)
  | .time name => .ok (upright (nameText style name))
  | .lambda parts => lambda parts
  | .piecewise parts => piecewise parts
  | .call name [] => .ok (command "mathtt" (nameText style name))
  | .call name xs =>
    (fun text => command "mathtt" (nameText style name) ++ brackets text) <$> Term.arguments xs
  | .qualifier q parts => qualifier q parts
  | .unknown => .ok (command "text" " unknown ")

/-- How LaTeX is made from trees. -/
def renderer (style : Style) : Renderer Rendition := ⟨.error, form style⟩

end Latex

/-- A tree as LaTeX. -/
def Tree.latex (t : Tree) (style : Latex.Style := {}) : Rendition := t.render (Latex.renderer style)

end MathTree

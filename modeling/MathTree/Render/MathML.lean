import MathTree.Number.RealText
import MathTree.Render.Markup
import MathTree.Render.Term

/-!
# Content MathML

Trees as content MathML.  An operator is applied inside an `apply` element, and the attributes of a
node go to the element that the node opens: `emit` lets them wait, and the first element that is
opened takes them.  A failure leaves the sheet as it then is.
-/

namespace MathTree

open MathTree.Number MathTree.Markup

namespace MathML

/-- The namespace of the elements. -/
def mathNamespace : String := "http://www.w3.org/1998/Math/MathML"

/-- The namespace of the attribute for units. -/
def sbmlNamespace : String := "http://www.sbml.org/sbml/level3/version2/core"

/-- An operand and what writes it. -/
abbrev Part := Operand (Scribe Unit)

/-- The attributes of a node for its presentation, of those that are set. -/
def presentation (h : Head) : List Attribute :=
  (h.id.map (Attribute.mk "id")).toList
    ++ (h.style.map (Attribute.mk "style")).toList
    ++ (h.styleClass.map (Attribute.mk "class")).toList

/-- Writes a node; its attributes wait for the element that it opens. -/
def emit (x : Part) : Scribe Unit := do
  setPending (presentation x.tree.head)
  x.result

def emitAll (xs : List Part) : Scribe Unit := xs.forM emit

/-- An operator applied to operands. -/
def apply (operator : String) (xs : List Part) : Scribe Unit := do
  openElement "apply" []
  write (.empty operator [])
  emitAll xs
  closeElement "apply"

/-- An element around operands. -/
def enclose (tag : String) (xs : List Part) : Scribe Unit := do
  openElement tag []
  emitAll xs
  closeElement tag

/-- An operand inside a qualifier, unless it is that qualifier. -/
def qualified (q : Qualifier) (x : Part) : Scribe Unit :=
  if x.tree.kind = .qualifier q then emit x
  else do
    openBare q.elementName
    emit x
    closeElement q.elementName

/-- A symbol with a fixed definition. -/
def csymbol (url name : String) : Scribe Unit :=
  textElement "csymbol" [⟨"encoding", "text"⟩, ⟨"definitionURL", url⟩] name

/-- A number of a type, with units if it has any. -/
def number (type : Option String) (units : Option String) (parts : List String) : Scribe Unit :=
  numberElement
    ((type.map (Attribute.mk "type")).toList ++ (units.map (Attribute.mk "sbml:units")).toList) parts

/-- What a node with these operands writes. -/
def form : Reading Part → Scribe Unit
  | .sum terms => apply "plus" terms
  | .difference left right => apply "minus" [left, right]
  | .negation x => apply "minus" [x]
  | .product factors => apply "times" factors
  | .quotient numerator denominator => apply "divide" [numerator, denominator]
  | .power base exponent => apply "power" [base, exponent]
  | .root degree radicand => do
    if degree.tree.isLiteral 0 then throw .zerothRoot
    openElement "apply" []
    write (.empty "root" [])
    qualified .degree degree
    emit radicand
    closeElement "apply"
  | .squareRoot radicand => apply "root" [radicand]
  | .logarithm base x => do
    openElement "apply" []
    write (.empty "log" [])
    if !base.tree.isLiteral 10 then qualified .logbase base
    emit x
    closeElement "apply"
  | .delay name x lag => do
    openElement "apply" []
    csymbol Kind.delayUrl name
    emit x
    emit lag
    closeElement "apply"
  | .relation r left right => apply r.elementName [left, right]
  | .connective c xs => apply c.elementName xs
  | .not x => apply "not" [x]
  | .elementary f x => apply f.elementName [x]
  | .integer value units => number (some "integer") units [intText value.toInt]
  | .real value units =>
    if value.isNan then emptyElement "notanumber" else number none units [value.realText]
  | .rational n d units => number (some "rational") units [intText n.toInt, intText d.toInt]
  | .exponential mantissa exponent units =>
    number (some "e-notation") units [mantissa.realText, intText exponent.toInt]
  | .infinity false => emptyElement "infinity"
  | .infinity true => do
    openElement "apply" []
    write (.empty "minus" [])
    write (.empty "infinity" [])
    closeElement "apply"
  | .constant c => emptyElement c.elementName
  | .avogadro name => csymbol Kind.avogadroUrl name
  | .time name => csymbol Kind.timeUrl name
  | .identifier name => textElement "ci" [] name
  | .lambda parts => enclose "lambda" parts
  | .piecewise parts => enclose "piecewise" parts
  | .call name xs => do
    openElement "apply" []
    textElement "ci" [] name
    emitAll xs
    closeElement "apply"
  | .qualifier q parts => enclose q.elementName parts
  | .unknown => throw .unknownNode

/-- How content MathML is made from trees. -/
def renderer : Renderer (Scribe Unit) := ⟨throw, form⟩

/-- Writes a tree without its own attributes. -/
def writeBare (t : Tree) : Scribe Unit := t.render renderer

/-- Writes a tree with its attributes. -/
def writeTree (t : Tree) : Scribe Unit := emit (t.operand renderer)

/-- Writes a tree as a whole document.  The namespace for units is declared if the tree uses any. -/
def writeDocument (t : Tree) : Scribe Unit := do
  openElement "math" (⟨"xmlns", mathNamespace⟩
    :: if t.usesUnits then [⟨"xmlns:sbml", sbmlNamespace⟩] else [])
  writeTree t
  closeElement "math"

/-- What a scribe writes on a blank sheet, if it does not fail. -/
def written (indent : Nat) (scribe : Scribe Unit) : Rendition :=
  match scribe.run Sheet.blank with
  | (.ok _, sheet) => .ok (sheet.text indent)
  | (.error fault, _) => .error fault

end MathML

/-- A tree as an element of content MathML. -/
def Tree.mathElement (t : Tree) (indent : Nat := 0) : Rendition :=
  MathML.written indent (MathML.writeTree t)

/-- A tree as a document of content MathML. -/
def Tree.mathDocument (t : Tree) (indent : Nat := 0) : Rendition :=
  MathML.written indent (MathML.writeDocument t)

end MathTree

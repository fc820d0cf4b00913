/-!
# Kinds of nodes

The closed vocabulary of an expression tree.  A `Kind` says what a node means: an operator, a
relation, a number, an identifier, a qualifier, ….  Families whose members behave alike have a
type of their own (`Relation`, `Connective`, `Elementary`, `Constant`, `Qualifier`).  `Kind.all`
lists every kind once, in the order in which the vocabulary is written, `Kind.label` is the word
by which messages name a kind, and `Kind.elementName` the markup element that introduces it.
-/

namespace MathTree

/-- The comparisons of two values. -/
inductive Relation where
  | eq | neq | lt | leq | gt | geq
  deriving DecidableEq, Repr

/-- The associative connectives of logic. -/
inductive Connective where
  | and | or | xor
  deriving DecidableEq, Repr

/-- The named functions of one operand. -/
inductive Elementary where
  | sin | cos | tan | sec | csc | cot
  | sinh | cosh | tanh | sech | csch | coth
  | arcsin | arccos | arctan | arcsec | arccsc | arccot
  | arcsinh | arccosh | arctanh | arcsech | arccsch | arccoth
  | abs | ceiling | floor | exp | factorial | ln
  deriving DecidableEq, Repr

/-- The named constants. -/
inductive Constant where
  | e | pi | truth | falsity
  deriving DecidableEq, Repr

/-- The nodes that qualify an operand of the node above them. -/
inductive Qualifier where
  | bvar | degree | logbase | piece | otherwise
  deriving DecidableEq, Repr

/-- What a node of an expression tree means. -/
inductive Kind where
  | plus | minus | times | divide | power
  | relation (r : Relation)
  | connective (c : Connective)
  | not
  | integer | real | rational | exponential
  | constant (c : Constant)
  | name | time | avogadro
  | delay
  | elementary (f : Elementary)
  | log | root
  | lambda | piecewise | call
  | qualifier (q : Qualifier)
  | unknown
  deriving DecidableEq, Repr

namespace Relation

/-- The word by which messages name a relation. -/
def label : Relation → String
  | .eq => "Eq" | .neq => "Neq" | .lt => "Lt" | .leq => "Leq" | .gt => "Gt" | .geq => "Geq"

/-- The element that stands for a relation. -/
def elementName : Relation → String
  | .eq => "eq" | .neq => "neq" | .lt => "lt" | .leq => "leq" | .gt => "gt" | .geq => "geq"

def all : List Relation := [.eq, .neq, .lt, .leq, .gt, .geq]

end Relation

namespace Connective

/-- The word by which messages name a connective. -/
def label : Connective → String
  | .and => "And" | .or => "Or" | .xor => "Xor"

/-- The element that stands for a connective. -/
def elementName : Connective → String
  | .and => "and" | .or => "or" | .xor => "xor"

def all : List Connective := [.and, .or, .xor]

end Connective

namespace Elementary

/-- The word by which messages name a function. -/
def label : Elementary → String
  | .sin => "Sin" | .cos => "Cos" | .tan => "Tan"
  | .sec => "Sec" | .csc => "Csc" | .cot => "Cot"
  | .sinh => "Sinh" | .cosh => "Cosh" | .tanh => "Tanh"
  | .sech => "Sech" | .csch => "Csch" | .coth => "Coth"
  | .arcsin => "Arcsin" | .arccos => "Arccos" | .arctan => "Arctan"
  | .arcsec => "Arcsec" | .arccsc => "Arccsc" | .arccot => "Arccot"
  | .arcsinh => "Arcsinh" | .arccosh => "Arccosh" | .arctanh => "Arctanh"
  | .arcsech => "Arcsech" | .arccsch => "Arccsch" | .arccoth => "Arccoth"
  | .abs => "Abs" | .ceiling => "Ceiling" | .floor => "Floor"
  | .exp => "Exp" | .factorial => "Factorial" | .ln => "Ln"

/-- The element that stands for a function. -/
def elementName : Elementary → String
  | .sin => "sin" | .cos => "cos" | .tan => "tan"
  | .sec => "sec" | .csc => "csc" | .cot => "cot"
  | .sinh => "sinh" | .cosh => "cosh" | .tanh => "tanh"
  | .sech => "sech" | .csch => "csch" | .coth => "coth"
  | .arcsin => "arcsin" | .arccos => "arccos" | .arctan => "arctan"
  | .arcsec => "arcsec" | .arccsc => "arccsc" | .arccot => "arccot"
  | .arcsinh => "arcsinh" | .arccosh => "arccosh" | .arctanh => "arctanh"
  | .arcsech => "arcsech" | .arccsch => "arccsch" | .arccoth => "arccoth"
  | .abs => "abs" | .ceiling => "ceiling" | .floor => "floor"
  | .exp => "exp" | .factorial => "factorial" | .ln => "ln"

/-- The circular and hyperbolic functions and their inverses. -/
def trigonometric : List Elementary :=
  [.sin, .cos, .tan, .sec, .csc, .cot,
   .sinh, .cosh, .tanh, .sech, .csch, .coth,
   .arcsin, .arccos, .arctan, .arcsec, .arccsc, .arccot,
   .arcsinh, .arccosh, .arctanh, .arcsech, .arccsch, .arccoth]

def all : List Elementary :=
  trigonometric ++ [.abs, .ceiling, .floor, .exp, .factorial, .ln]

end Elementary

namespace Constant

/-- The word by which messages name a constant. -/
def label : Constant → String
  | .e => "ConstantE" | .pi => "ConstantPi" | .truth => "ConstantTrue" | .falsity => "ConstantFalse"

/-- The element that stands for a constant. -/
def elementName : Constant → String
  | .e => "exponentiale" | .pi => "pi" | .truth => "true" | .falsity => "false"

def all : List Constant := [.e, .pi, .truth, .falsity]

end Constant

namespace Qualifier

/-- The word by which messages name a qualifier. -/
def label : Qualifier → String
  | .bvar => "Bvar" | .degree => "Degree" | .logbase => "Logbase" | .piece => "Piece"
  | .otherwise => "Otherwise"

/-- The element that stands for a qualifier. -/
def elementName : Qualifier → String
  | .bvar => "bvar" | .degree => "degree" | .logbase => "logbase" | .piece => "piece"
  | .otherwise => "otherwise"

def all : List Qualifier := [.bvar, .degree, .logbase, .piece, .otherwise]

end Qualifier

namespace Kind

/-- Every kind once, in the order of the vocabulary. -/
def all : List Kind :=
  [.plus, .minus, .times, .divide, .power]
    ++ Relation.all.map .relation
    ++ Connective.all.map .connective
    ++ [.not, .integer, .real, .rational, .exponential]
    ++ Constant.all.map .constant
    ++ [.name, .time, .avogadro, .delay]
    ++ Elementary.all.map .elementary
    ++ [.log, .root, .lambda, .piecewise, .call]
    ++ Qualifier.all.map .qualifier
    ++ [.unknown]

/-- The word by which messages name a kind. -/
def label : Kind → String
  | .plus => "Plus" | .minus => "Minus" | .times => "Times" | .divide => "Divide"
  | .power => "Power"
  | .relation r => r.label
  | .connective c => c.label
  | .not => "Not"
  | .integer => "Integer" | .real => "Real" | .rational => "Rational" | .exponential => "RealE"
  | .constant c => c.label
  | .name => "Name" | .time => "NameTime" | .avogadro => "NameAvogadro"
  | .delay => "FunctionDelay"
  | .elementary f => f.label
  | .log => "Log" | .root => "Root"
  | .lambda => "Lambda" | .piecewise => "Piecewise" | .call => "Function"
  | .qualifier q => q.label
  | .unknown => "Unknown"

/-- The markup element that introduces a node, if one element does.  The numbers share `cn` and the
symbols with a fixed definition share `csymbol`. -/
def elementName : Kind → Option String
  | .plus => some "plus" | .minus => some "minus" | .times => some "times"
  | .divide => some "divide" | .power => some "power"
  | .relation r => some r.elementName
  | .connective c => some c.elementName
  | .not => some "not"
  | .integer | .real | .rational | .exponential => some "cn"
  | .constant c => some c.elementName
  | .name => some "ci"
  | .time | .avogadro | .delay => some "csymbol"
  | .elementary f => some f.elementName
  | .log => some "log" | .root => some "root"
  | .lambda => some "lambda" | .piecewise => some "piecewise"
  | .qualifier q => some q.elementName
  | .call | .unknown => none

/-! ### Classes -/

/-- The arithmetic operators. -/
def isOperator : Kind → Bool
  | .plus | .minus | .times | .divide | .power => true
  | _ => false

def isRelational : Kind → Bool
  | .relation _ => true
  | _ => false

/-- The connectives and negation. -/
def isLogical : Kind → Bool
  | .connective _ | .not => true
  | _ => false

/-- The number literals; the named constants are not among them. -/
def isNumber : Kind → Bool
  | .integer | .real | .rational | .exponential => true
  | _ => false

def isConstant : Kind → Bool
  | .constant _ | .avogadro => true
  | _ => false

def isTrigonometric : Kind → Bool
  | .elementary f => Elementary.trigonometric.contains f
  | _ => false

/-- Whatever is written as the application of a function and is no operator. -/
def isFunction : Kind → Bool
  | .elementary _ | .log | .root | .lambda | .piecewise | .call | .delay => true
  | _ => false

def isQualifier : Kind → Bool
  | .qualifier _ => true
  | _ => false

/-- The qualifiers that stand for their content as the first operand of a root or a logarithm. -/
def isTransparent : Kind → Bool
  | .qualifier .degree | .qualifier .logbase => true
  | _ => false

/-- The kinds that are written as a symbol with a fixed definition. -/
def isCsymbol : Kind → Bool
  | .time | .avogadro | .delay => true
  | _ => false

/-- Where the symbol of the time is defined. -/
def timeUrl : String := "http://www.sbml.org/sbml/symbols/time"

/-- Where the symbol of a delay is defined. -/
def delayUrl : String := "http://www.sbml.org/sbml/symbols/delay"

/-- Where the symbol of Avogadro's number is defined. -/
def avogadroUrl : String := "http://www.sbml.org/sbml/symbols/avogadro"

/-- The address of the definition of a symbol. -/
def definitionUrl : Kind → Option String
  | .time => some timeUrl
  | .delay => some delayUrl
  | .avogadro => some avogadroUrl
  | _ => none

/-- Whether a document of a level and version may use a kind.  No table of this is kept, so the
answer is always that it is not known. -/
def isDefinedIn (_kind : Kind) (_level _version : Nat) : Option Bool := none

/-! ### Reading a token -/

/-- Tokens that stand for a kind beside the name of its element. -/
def aliases : List (String × Kind) :=
  [("&&", .connective .and), ("||", .connective .or), ("!", .not),
   ("=", .relation .eq), (">", .relation .gt), ("<", .relation .lt),
   (">=", .relation .geq), ("<=", .relation .leq),
   (timeUrl, .time), (delayUrl, .delay), (avogadroUrl, .avogadro),
   ("notanumber", .real), ("infinity", .real)]

/-- Tokens that are read in any mixture of capital and small letters, in small letters. -/
def caselessAliases : List (String × Kind) :=
  [("cn", .real), ("real", .real), ("e-notation", .exponential), ("integer", .integer),
   ("rational", .rational)]

/-- The kind whose element has this name, where no other kind shares the element. -/
def ofElementName? (token : String) : Option Kind :=
  all.find? fun k => !k.isNumber && !k.isCsymbol && k.elementName == some token

/-- The kind that a token stands for: the name of an element or operator, the type of a number or
the address of a symbol's definition.  A token that is none of them stands for `unknown`.  Only the
letters of ASCII have a capital and a small form here. -/
def ofToken (token : String) : Kind :=
  (aliases.lookup token <|> ofElementName? token
    <|> caselessAliases.lookup (token.map Char.toLower)).getD .unknown

end Kind

end MathTree

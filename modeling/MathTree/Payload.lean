import MathTree.Datum
import MathTree.Fault

/-!
# Payloads

What a node carries beside its kind, according to its form: the parts of a number and its units, the
symbol of an identifier, or the counts that a `lambda` and a `piecewise` keep of their children.  A
real part that is not set is not a number.
-/

namespace MathTree

open MathTree.Number

/-- Name, definition and encoding of an identifier. -/
structure Symbol where
  name : Option String := none
  definitionUrl : Option String := none
  encoding : Option String := none
  deriving DecidableEq, Repr

namespace Symbol

def blank : Symbol := {}

def named (name : String) : Symbol := { name := some name }

/-- The symbol with a fixed definition that a kind stands for. -/
def fixed (kind : Kind) (name : String) : Symbol :=
  { name := some name, definitionUrl := kind.definitionUrl, encoding := some "text" }

end Symbol

/-- What a node carries, by form. -/
inductive Payload where
  | integer (value : Option Int32) (units : Option String)
  | real (value : Binary64) (units : Option String)
  | rational (numerator denominator : Option Int32) (units : Option String)
  | exponential (mantissa : Binary64) (exponent : Option Int32) (units : Option String)
  | constant
  | identifier (symbol : Symbol)
  | csymbol (symbol : Symbol)
  | unknown
  | nary
  /-- Only a delay makes use of the symbol. -/
  | binary (symbol : Symbol)
  | unary
  | lambda (bound : Nat)
  | piecewise (cases : Nat) (fallback : Bool)
  | qualifier
  | call (symbol : Symbol)
  deriving DecidableEq, Repr

/-- A value to be written into a node. -/
inductive Assignment where
  | id (value : Option String)
  | style (value : Option String)
  | styleClass (value : Option String)
  | integer (value : Int32)
  | real (value : Binary64)
  | numerator (value : Int32)
  | denominator (value : Int32)
  | mantissa (value : Binary64)
  | exponent (value : Int32)
  | units (value : Option String)
  | name (value : String)
  | definitionUrl (value : String)
  | encoding (value : String)
  deriving DecidableEq, Repr

/-- The field that an assignment writes. -/
def Assignment.field : Assignment → Field
  | .id _ => .id
  | .style _ => .style
  | .styleClass _ => .styleClass
  | .integer _ => .integer
  | .real _ => .real
  | .numerator _ => .numerator
  | .denominator _ => .denominator
  | .mantissa _ => .mantissa
  | .exponent _ => .exponent
  | .units _ => .units
  | .name _ => .name
  | .definitionUrl _ => .definitionUrl
  | .encoding _ => .encoding

namespace Payload

/-- What a fresh node of a form and kind carries. -/
def blank : Form → Kind → Payload
  | .integer, _ => .integer none none
  | .real, _ => .real .nan none
  | .rational, _ => .rational none none none
  | .exponential, _ => .exponential .nan none none
  | .constant, _ => .constant
  | .identifier, _ => .identifier .blank
  | .csymbol, .avogadro => .csymbol (.fixed .avogadro "avogadro")
  | .csymbol, kind => .csymbol (.fixed kind "time")
  | .unknown, _ => .unknown
  | .nary, _ => .nary
  | .binary, .delay => .binary (.fixed .delay "delay")
  | .binary, _ => .binary .blank
  | .unary, _ => .unary
  | .lambda, _ => .lambda 0
  | .piecewise, _ => .piecewise 0 false
  | .qualifier, _ => .qualifier
  | .call, _ => .call .blank

/-- The form of the nodes that carry a payload. -/
def form : Payload → Form
  | .integer .. => .integer
  | .real .. => .real
  | .rational .. => .rational
  | .exponential .. => .exponential
  | .constant => .constant
  | .identifier _ => .identifier
  | .csymbol _ => .csymbol
  | .unknown => .unknown
  | .nary => .nary
  | .binary _ => .binary
  | .unary => .unary
  | .lambda _ => .lambda
  | .piecewise .. => .piecewise
  | .qualifier => .qualifier
  | .call _ => .call

/-! ### Parts

Each of these is `none` for a payload without the part. -/

def integer? : Payload → Option (Option Int32)
  | .integer value _ => some value
  | _ => none

def real? : Payload → Option Binary64
  | .real value _ => some value
  | _ => none

def numerator? : Payload → Option (Option Int32)
  | .rational numerator _ _ => some numerator
  | _ => none

def denominator? : Payload → Option (Option Int32)
  | .rational _ denominator _ => some denominator
  | _ => none

def mantissa? : Payload → Option Binary64
  | .exponential mantissa _ _ => some mantissa
  | _ => none

def exponent? : Payload → Option (Option Int32)
  | .exponential _ exponent _ => some exponent
  | _ => none

def units? : Payload → Option (Option String)
  | .integer _ units | .real _ units | .rational _ _ units | .exponential _ _ units => some units
  | _ => none

def symbol? : Payload → Option Symbol
  | .identifier symbol | .csymbol symbol | .binary symbol | .call symbol => some symbol
  | _ => none

/-- The same payload with another symbol, if it has one. -/
def withSymbol? : Payload → (Symbol → Symbol) → Option Payload
  | .identifier symbol, f => some (.identifier (f symbol))
  | .csymbol symbol, f => some (.csymbol (f symbol))
  | .binary symbol, f => some (.binary (f symbol))
  | .call symbol, f => some (.call (f symbol))
  | _, _ => none

/-- The same payload with other units, if it has units. -/
def withUnits? : Payload → Option String → Option Payload
  | .integer value _, units => some (.integer value units)
  | .real value _, units => some (.real value units)
  | .rational numerator denominator _, units => some (.rational numerator denominator units)
  | .exponential mantissa exponent _, units => some (.exponential mantissa exponent units)
  | _, _ => none

/-- The payload after an assignment, if it has the part that is written. -/
def assign? (payload : Payload) (assignment : Assignment) : Option Payload :=
  match assignment, payload with
  | .integer value, .integer _ units => some (.integer (some value) units)
  | .real value, .real _ units => some (.real value units)
  | .numerator value, .rational _ denominator units => some (.rational (some value) denominator units)
  | .denominator value, .rational numerator _ units => some (.rational numerator (some value) units)
  | .mantissa value, .exponential _ exponent units => some (.exponential value exponent units)
  | .exponent value, .exponential mantissa _ units => some (.exponential mantissa (some value) units)
  | .units value, payload => payload.withUnits? value
  | .name value, payload => payload.withSymbol? ({ · with name := some value })
  | .definitionUrl value, payload => payload.withSymbol? ({ · with definitionUrl := some value })
  | .encoding value, payload => payload.withSymbol? ({ · with encoding := some value })
  | _, _ => none

/-- Whether two payloads hold the same.  Two reals that are not set are the same, and so are the two
zeros. -/
def same : Payload → Payload → Bool
  | .integer v u, .integer v' u' => v == v' && u == u'
  | .real v u, .real v' u' => v.same v' && u == u'
  | .rational n d u, .rational n' d' u' => n == n' && d == d' && u == u'
  | .exponential m e u, .exponential m' e' u' => m.same m' && e == e' && u == u'
  | .lambda b, .lambda b' => b == b'
  | .piecewise c o, .piecewise c' o' => c == c' && o == o'
  | p, p' => p.form == p'.form && p.symbol? == p'.symbol?

theorem form_blank (form : Form) (kind : Kind) : (blank form kind).form = form := by
  unfold blank
  split <;> rfl

end Payload

end MathTree

import MathTree.Payload
import MathTree.Number.Decimal

/-!
# Heads of nodes

All that a node says of itself, without its place in a tree: kind, strictness, attributes and
payload.  The readers of values (`Head.integer`, `Head.name`, …) follow one policy, `Head.demand`: a
node that cannot carry the value refuses, a strict node refuses if the value is not set, and a
lenient node then gives a default.
-/

namespace MathTree

open MathTree.Number

/-- What a node says of itself. -/
structure Head where
  kind : Kind
  strict : Bool := true
  id : Option String := none
  style : Option String := none
  styleClass : Option String := none
  payload : Payload
  deriving DecidableEq, Repr

namespace Head

/-- A strict node of a form and kind with nothing set. -/
def blank (form : Form) (kind : Kind) : Head := { kind := kind, payload := .blank form kind }

/-- A strict node of a kind in its usual form with nothing set. -/
def ofKind (kind : Kind) : Head := blank (.ofKind kind) kind

def integerLiteral (value : Int32) : Head :=
  { kind := .integer, payload := .integer (some value) none }

def realLiteral (value : Binary64) : Head := { kind := .real, payload := .real value none }

def rationalLiteral (numerator denominator : Int32) : Head :=
  { kind := .rational, payload := .rational (some numerator) (some denominator) none }

/-- The number `mantissa * 10 ^ exponent`. -/
def exponentialLiteral (mantissa : Binary64) (exponent : Int32) : Head :=
  { kind := .exponential, payload := .exponential mantissa (some exponent) none }

def identifier (name : String) : Head :=
  { kind := .name, payload := .identifier (.named name) }

/-- A call of the function of a name. -/
def call (name : String) : Head := { kind := .call, payload := .call (.named name) }

def boolean (value : Bool) : Head := ofKind (.constant (if value then .truth else .falsity))

def form (h : Head) : Form := h.payload.form

def isLeaf (h : Head) : Bool := h.form.isLeaf

/-- The number of children at which the node is full while strict. -/
def capacity (h : Head) : Option Nat := h.form.capacity h.kind

/-- How many of its children a node shows: a strict node never shows more than it may hold. -/
def shown (h : Head) (children : Nat) : Nat :=
  match h.capacity with
  | some capacity => if h.strict then min children capacity else children
  | none => children

/-! ### Reading values -/

/-- The value in a slot that the node may lack (`none`) or that may not be set (`some none`). -/
def demand {α : Type} (h : Head) (field : Field) (slot : Option (Option α)) (default : α) :
    Except Fault α :=
  match slot with
  | none => .error (.unsupported (.read field) h.kind)
  | some (some value) => .ok value
  | some none => if h.strict then .error (.unset field h.kind) else .ok default

/-- A real that is not a number counts as not set. -/
def setReal (x : Binary64) : Option Binary64 := if x.isNan then none else some x

def readId (h : Head) : Except Fault String := h.demand .id (some h.id) ""

def readStyle (h : Head) : Except Fault String := h.demand .style (some h.style) ""

def readStyleClass (h : Head) : Except Fault String := h.demand .styleClass (some h.styleClass) ""

def integer (h : Head) : Except Fault Int32 := h.demand .integer h.payload.integer? 0

def real (h : Head) : Except Fault Binary64 :=
  h.demand .real (h.payload.real?.map setReal) .nan

def numerator (h : Head) : Except Fault Int32 := h.demand .numerator h.payload.numerator? 0

def denominator (h : Head) : Except Fault Int32 := h.demand .denominator h.payload.denominator? 1

def mantissa (h : Head) : Except Fault Binary64 :=
  h.demand .mantissa (h.payload.mantissa?.map setReal) .nan

def exponent (h : Head) : Except Fault Int32 := h.demand .exponent h.payload.exponent? 0

def units (h : Head) : Except Fault String := h.demand .units h.payload.units? ""

def name (h : Head) : Except Fault String :=
  h.demand .name (h.payload.symbol?.map Symbol.name) ""

def definitionUrl (h : Head) : Except Fault String :=
  h.demand .definitionUrl (h.payload.symbol?.map Symbol.definitionUrl) ""

def encoding (h : Head) : Except Fault String :=
  h.demand .encoding (h.payload.symbol?.map Symbol.encoding) ""

/-- The units if there are any. -/
def units? (h : Head) : Option String := h.payload.units?.join

/-- The name if there is one. -/
def name? (h : Head) : Option String := h.payload.symbol?.bind Symbol.name

def definitionUrl? (h : Head) : Option String := h.payload.symbol?.bind Symbol.definitionUrl

/-- The real value as it is stored; what is not set is not a number. -/
def storedReal (h : Head) : Binary64 := h.payload.real?.getD .nan

/-- How many bound variables a `lambda` counts. -/
def boundCount (h : Head) : Except Fault Nat :=
  match h.payload with
  | .lambda bound => .ok bound
  | _ => .error (.unsupported .boundCount h.kind)

/-- How many cases a `piecewise` counts. -/
def caseCount (h : Head) : Except Fault Nat :=
  match h.payload with
  | .piecewise cases _ => .ok cases
  | _ => .error (.unsupported .caseCount h.kind)

/-- Whether a `piecewise` has a fallback. -/
def hasFallback (h : Head) : Except Fault Bool :=
  match h.payload with
  | .piecewise _ fallback => .ok fallback
  | _ => .error (.unsupported .hasFallback h.kind)

/-! ### Writing values -/

/-- What the node has in a field, if it can carry the field. -/
def datum? (h : Head) : Field → Option Datum
  | .id => some (.ofText? h.id)
  | .style => some (.ofText? h.style)
  | .styleClass => some (.ofText? h.styleClass)
  | .integer => h.payload.integer?.map .ofInteger?
  | .real => h.payload.real?.map .real
  | .numerator => h.payload.numerator?.map .ofInteger?
  | .denominator => h.payload.denominator?.map .ofInteger?
  | .mantissa => h.payload.mantissa?.map .real
  | .exponent => h.payload.exponent?.map .ofInteger?
  | .units => h.payload.units?.map .ofText?
  | .name => h.payload.symbol?.map fun s => .ofText? s.name
  | .definitionUrl => h.payload.symbol?.map fun s => .ofText? s.definitionUrl
  | .encoding => h.payload.symbol?.map fun s => .ofText? s.encoding

/-- The head after an assignment, if the node can carry the field. -/
def assign? (h : Head) : Assignment → Option Head
  | .id value => some { h with id := value }
  | .style value => some { h with style := value }
  | .styleClass value => some { h with styleClass := value }
  | assignment => (h.payload.assign? assignment).map ({ h with payload := · })

/-! ### Literals -/

/-- The number that a literal is, if it is one and fits a `Decimal`.  Fractions are divided out and
powers of ten expanded. -/
def literal? (h : Head) : Option Decimal :=
  match h.payload with
  | .integer (some value) _ => some (.ofInt value.toInt)
  | .real value _ => Decimal.ofBinary64? value
  | .rational (some n) (some d) _ => if d = 0 then none else Decimal.quotient? n.toInt d.toInt
  | .exponential mantissa (some e) _ => do
    let m ← Decimal.ofBinary64? mantissa
    let power ← Decimal.ofBinary64? (Binary64.powerOfTen e.toInt)
    m.mul? power
  | _ => none

/-- Whether the node is a literal of a whole value. -/
def isLiteral (h : Head) (value : Int) : Bool :=
  match h.literal? with
  | some d => d.same (.ofInt value)
  | none => false

/-- Whether two nodes say the same of themselves. -/
def same (a b : Head) : Bool :=
  a.kind == b.kind && a.strict == b.strict && a.id == b.id && a.style == b.style
    && a.styleClass == b.styleClass && a.payload.same b.payload

theorem form_blank (form : Form) (kind : Kind) : (blank form kind).form = form :=
  Payload.form_blank form kind

end Head

end MathTree

import MathTree.Tree

/-!
# Reading a node

A `Reading α` is what a node means, with operands of type `α`: a sum, a root of some degree, a number
with its units, ….  `Head.reading?` reads a node off its head and the operands that it shows, and
refuses a node that has not the operands or the values its kind needs.  A root and a logarithm take
what a qualifier in their first place stands for, and a root of degree two is read as a square root.
`Tree.reading?` reads the top of a tree.
-/

namespace MathTree

open MathTree.Number

/-- What a node means, with operands of type `α`. -/
inductive Reading (α : Type) where
  | sum (terms : List α)
  | difference (left right : α)
  | negation (operand : α)
  | product (factors : List α)
  | quotient (numerator denominator : α)
  | power (base exponent : α)
  | root (degree radicand : α)
  | squareRoot (radicand : α)
  | logarithm (base operand : α)
  | delay (name : String) (operand lag : α)
  | relation (r : Relation) (left right : α)
  | connective (c : Connective) (operands : List α)
  | not (operand : α)
  | elementary (f : Elementary) (operand : α)
  | integer (value : Int32) (units : Option String)
  | real (value : Binary64) (units : Option String)
  | rational (numerator denominator : Int32) (units : Option String)
  | exponential (mantissa : Binary64) (exponent : Int32) (units : Option String)
  | infinity (negative : Bool)
  | constant (c : Constant)
  | avogadro (name : String)
  | time (name : String)
  | identifier (name : String)
  | lambda (parts : List α)
  | piecewise (parts : List α)
  | call (name : String) (arguments : List α)
  | qualifier (q : Qualifier) (parts : List α)
  | unknown

namespace Reading

variable {α β : Type}

/-- The same reading with other operands. -/
def map (f : α → β) : Reading α → Reading β
  | .sum terms => .sum (terms.map f)
  | .difference left right => .difference (f left) (f right)
  | .negation operand => .negation (f operand)
  | .product factors => .product (factors.map f)
  | .quotient numerator denominator => .quotient (f numerator) (f denominator)
  | .power base exponent => .power (f base) (f exponent)
  | .root degree radicand => .root (f degree) (f radicand)
  | .squareRoot radicand => .squareRoot (f radicand)
  | .logarithm base operand => .logarithm (f base) (f operand)
  | .delay name operand lag => .delay name (f operand) (f lag)
  | .relation r left right => .relation r (f left) (f right)
  | .connective c operands => .connective c (operands.map f)
  | .not operand => .not (f operand)
  | .elementary function operand => .elementary function (f operand)
  | .integer value units => .integer value units
  | .real value units => .real value units
  | .rational numerator denominator units => .rational numerator denominator units
  | .exponential mantissa exponent units => .exponential mantissa exponent units
  | .infinity negative => .infinity negative
  | .constant c => .constant c
  | .avogadro name => .avogadro name
  | .time name => .time name
  | .identifier name => .identifier name
  | .lambda parts => .lambda (parts.map f)
  | .piecewise parts => .piecewise (parts.map f)
  | .call name arguments => .call name (arguments.map f)
  | .qualifier q parts => .qualifier q (parts.map f)
  | .unknown => .unknown

/-- The operands, in order. -/
def operands : Reading α → List α
  | .sum xs | .product xs | .connective _ xs | .lambda xs | .piecewise xs | .call _ xs
  | .qualifier _ xs => xs
  | .difference x y | .quotient x y | .power x y | .root x y | .logarithm x y | .delay _ x y
  | .relation _ x y => [x, y]
  | .negation x | .squareRoot x | .not x | .elementary _ x => [x]
  | .integer .. | .real .. | .rational .. | .exponential .. | .infinity _ | .constant _ | .avogadro _
  | .time _ | .identifier _ | .unknown => []

end Reading

/-- A child of a node: itself, and what it stands for where it may be qualified. -/
structure Slot (α : Type) where
  itself : α
  content : α

/-- The same slot with another child. -/
def Slot.map {α β : Type} (f : α → β) (s : Slot α) : Slot β := ⟨f s.itself, f s.content⟩

namespace Head

variable {α β : Type}

/-- The operand of a node that takes one. -/
def one (h : Head) : List α → Except Fault α
  | x :: _ => .ok x
  | [] => .error (.arity h.kind 1 0)

/-- The operands of a node that takes two. -/
def two (h : Head) : List α → Except Fault (α × α)
  | [x, y] => .ok (x, y)
  | xs => .error (.arity h.kind 2 xs.length)

/-- The content of a qualifier, which must be full. -/
def full (h : Head) (xs : List α) : Except Fault (List α) :=
  let expected := h.capacity.getD 1
  if xs.length = expected then .ok xs else .error (.arity h.kind expected xs.length)

/-- A root, which is a square root if its degree is two. -/
def rootReading (isTwo : α → Bool) (degree radicand : α) : Reading α :=
  if isTwo degree then .squareRoot radicand else .root degree radicand

/-- What a node means, from the children that it shows.  `isTwo` tells the literal two. -/
def reading? (h : Head) (isTwo : α → Bool) (slots : List (Slot α)) : Except Fault (Reading α) :=
  let shown := slots.map Slot.itself
  match h.kind with
  | .plus => .ok (.sum shown)
  | .times => .ok (.product shown)
  | .connective c => .ok (.connective c shown)
  | .minus =>
    if h.form = .unary then .negation <$> h.one shown
    else (fun (x, y) => .difference x y) <$> h.two shown
  | .divide => (fun (x, y) => .quotient x y) <$> h.two shown
  | .power => (fun (x, y) => .power x y) <$> h.two shown
  | .root => (fun (x, y) => rootReading isTwo x.content y.itself) <$> h.two slots
  | .log => (fun (x, y) => .logarithm x.content y.itself) <$> h.two slots
  | .delay => do
    let (x, y) ← h.two shown
    return .delay (← h.name) x y
  | .relation r => (fun (x, y) => .relation r x y) <$> h.two shown
  | .not => .not <$> h.one shown
  | .elementary f => .elementary f <$> h.one shown
  | .integer => do return .integer (← h.integer) h.units?
  | .real =>
    .ok <| match h.storedReal.value with
      | .infinite negative => .infinity negative
      | _ => .real h.storedReal h.units?
  | .rational => do return .rational (← h.numerator) (← h.denominator) h.units?
  | .exponential => do return .exponential (← h.mantissa) (← h.exponent) h.units?
  | .constant c => .ok (.constant c)
  | .name => .identifier <$> h.name
  | .time => .time <$> h.name
  | .avogadro => .avogadro <$> h.name
  | .lambda => .ok (.lambda shown)
  | .piecewise => .ok (.piecewise shown)
  | .call => (.call · shown) <$> h.name
  | .qualifier q => .qualifier q <$> h.full shown
  | .unknown => .ok .unknown

theorem one_map (h : Head) (f : α → β) (xs : List α) : h.one (xs.map f) = (h.one xs).map f := by
  cases xs <;> rfl

theorem two_map (h : Head) (f : α → β) (xs : List α) :
    h.two (xs.map f) = (h.two xs).map (Prod.map f f) := by
  rcases xs with _ | ⟨x, _ | ⟨y, _ | ⟨z, xs⟩⟩⟩ <;> simp [two, Except.map]

theorem full_map (h : Head) (f : α → β) (xs : List α) :
    h.full (xs.map f) = (h.full xs).map (List.map f) := by
  simp only [full, List.length_map]
  split <;> rfl

theorem map_rootReading (f : α → β) {isTwo : α → Bool} {isTwo' : β → Bool}
    (ht : ∀ x, isTwo' (f x) = isTwo x) (x y : α) :
    (rootReading isTwo x y).map f = rootReading isTwo' (f x) (f y) := by
  rw [rootReading, rootReading, ht]
  split <;> rfl

/-- Operands may be replaced before a node is read or after. -/
theorem reading?_map (h : Head) (f : α → β) {isTwo : α → Bool} {isTwo' : β → Bool}
    (ht : ∀ x, isTwo' (f x) = isTwo x) (slots : List (Slot α)) :
    h.reading? isTwo' (slots.map (Slot.map f)) = (h.reading? isTwo slots).map (Reading.map f) := by
  have hs : (slots.map (Slot.map f)).map Slot.itself = (slots.map Slot.itself).map f := by
    simp [Slot.map]
  cases hk : h.kind with
  | plus | times | connective | lambda | piecewise | constant | unknown =>
    simp only [reading?, hk, hs]
    rfl
  | divide | power | relation =>
    simp only [reading?, hk, hs, two_map]
    cases h.two slots <;> rfl
  | log =>
    simp only [reading?, hk, two_map]
    cases h.two slots <;> rfl
  | root =>
    simp only [reading?, hk, two_map]
    rcases h.two slots with _ | ⟨x, y⟩
    · rfl
    · exact congrArg Except.ok (map_rootReading f ht x.content y.itself).symm
  | minus =>
    simp only [reading?, hk, hs, two_map, one_map]
    split
    · cases h.one slots <;> rfl
    · cases h.two slots <;> rfl
  | delay =>
    simp only [reading?, hk, hs, two_map]
    cases h.two slots
    · rfl
    · cases h.name <;> rfl
  | not | elementary =>
    simp only [reading?, hk, hs, one_map]
    cases h.one slots <;> rfl
  | name | time | avogadro | call =>
    simp only [reading?, hk, hs]
    cases h.name <;> rfl
  | integer =>
    simp only [reading?, hk]
    cases h.integer <;> rfl
  | real =>
    simp only [reading?, hk]
    split <;> rfl
  | rational =>
    simp only [reading?, hk]
    cases h.numerator
    · rfl
    · cases h.denominator <;> rfl
  | exponential =>
    simp only [reading?, hk]
    cases h.mantissa
    · rfl
    · cases h.exponent <;> rfl
  | qualifier =>
    simp only [reading?, hk, hs, full_map]
    cases h.full slots <;> rfl

end Head

namespace Tree

/-- A child and what it stands for. -/
def slot (t : Tree) : Slot Tree := ⟨t, t.content⟩

/-- What the top of a tree means. -/
def reading? (t : Tree) : Except Fault (Reading Tree) :=
  t.head.reading? (·.isLiteral 2) (t.shown.map slot)

end Tree

end MathTree

import MathTree.Forest.Edit

/-!
# Operands

Children by the part they play: the operands of operators, the content of qualifiers, the bound
variables and the body of a `lambda`, the cases and the fallback of a `piecewise`.  A `lambda` holds
its bound variables before its body, and a `piecewise` its cases before its fallback.
-/

namespace MathTree

namespace Forest

/-- Refuses a request to a node that has not the form for it. -/
def expectForm (f : Forest) (n : NodeId) (form : Form) (request : Request) : Except Fault Unit :=
  if (f.head n).form = form then .ok () else .error (.unsupported request (f.kind n))

/-- Both operands of a binary node.  A strict node must show two children; a lenient one takes its
first and its last. -/
def operands (f : Forest) (n : NodeId) (request : Request) : Except Fault (NodeId × NodeId) := do
  f.expectForm n .binary request
  let shown := f.shown n
  if (f.head n).strict && shown.length != 2 then throw (.arity (f.kind n) 2 shown.length)
  match shown.head?, shown.getLast? with
  | some left, some right => return (left, right)
  | _, _ => throw (.outOfRange 0 0)

def left (f : Forest) (n : NodeId) : Except Fault NodeId := (·.1) <$> f.operands n .left

def right (f : Forest) (n : NodeId) : Except Fault NodeId := (·.2) <$> f.operands n .right

/-- The operand of a unary node. -/
def operand (f : Forest) (n : NodeId) : Except Fault NodeId := do
  f.expectForm n .unary .operand
  f.childAt n 0

/-- The body of a `lambda`: its first child behind the bound variables. -/
def body (f : Forest) (n : NodeId) : Except Fault NodeId := do
  f.childAt n (← (f.head n).boundCount)

/-- The position of the fallback among the children of a `piecewise`. -/
def fallbackPosition (f : Forest) (n : NodeId) : Option Nat :=
  (f.children n).findIdx? (f.kind · = .qualifier .otherwise)

end Forest

namespace Edit

/-- Puts a node in the place of a child that is shown, or behind all children if that many are not
shown. -/
def replaceOrAppend (p : NodeId) (position : Nat) (child : NodeId) : Edit Unit := do
  if position < (← get).childCount p then discard <| replaceAt p position child
  else append p child

/-- Sets the first operand of a binary node. -/
def setLeft (p child : NodeId) : Edit Unit := do
  (← get).expectForm p .binary .setLeft
  replaceOrAppend p 0 child

/-- Sets the last operand of a binary node, which is not its first one. -/
def setRight (p child : NodeId) : Edit Unit := do
  (← get).expectForm p .binary .setRight
  let count := (← get).childCount p
  if 2 ≤ count then discard <| replaceAt p (count - 1) child
  else append p child

/-- Sets the operand of a unary node. -/
def setOperand (p child : NodeId) : Edit Unit := do
  (← get).expectForm p .unary .setOperand
  replaceOrAppend p 0 child

/-! ### Qualifiers -/

/-- A new qualifier around a node. -/
def qualify (kind : Kind) (child : NodeId) : Edit NodeId := do
  let qualifier ← plant (.ofForm .qualifier kind)
  append qualifier child
  return qualifier

/-- A new case: a value, and the condition under which it holds. -/
def piece (value condition : NodeId) : Edit NodeId := do
  let piece ← qualify (.qualifier .piece) value
  append piece condition
  return piece

/-! ### Lambda -/

/-- Adds a bound variable behind those that a `lambda` has.  A node that is no bound variable yet
becomes the content of a new one. -/
def addBound (p parameter : NodeId) : Edit Unit := do
  let position ← ((← get).head p).boundCount
  if (← get).kind parameter = .qualifier .bvar then insertAt p position parameter
  else
    -- to be put into a qualifier, the variable leaves its parent, so this is checked before
    checkAdopt p parameter
    let bound ← qualify (.qualifier .bvar) parameter
    try insertAt p position bound
    catch fault =>
      giveUp bound
      throw fault

/-- Sets the body of a `lambda`. -/
def setBody (p body : NodeId) : Edit Unit := do
  let position ← ((← get).head p).boundCount
  replaceOrAppend p position body

/-! ### Piecewise -/

/-- Adds a case to a `piecewise`, before its fallback if it has one. -/
def addCase (p value condition : NodeId) : Edit Unit := do
  discard <| ((← get).head p).caseCount
  checkAdopt p value
  checkAdopt p condition
  let piece ← piece value condition
  match (← get).fallbackPosition p with
  | some position => insertAt p position piece
  | none => append p piece

/-- Sets the fallback of a `piecewise`. -/
def setFallback (p value : NodeId) : Edit Unit := do
  discard <| ((← get).head p).caseCount
  checkAdopt p value
  let fallback ← qualify (.qualifier .otherwise) value
  match (← get).fallbackPosition p with
  | some position => discard <| replaceAt p position fallback
  | none => append p fallback

end Edit

end MathTree

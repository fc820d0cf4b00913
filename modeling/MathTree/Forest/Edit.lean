import MathTree.Forest.Link

/-!
# Edits

An `Edit` changes a forest and may fail; what it changed before it failed stays.  Here are the edits
of single nodes: making one, moving it below another, setting its values, and registering listeners
and containers.  A node refuses a child that it cannot adopt (`Edit.checkAdopt`), and a strict node
refuses one for which it has no room.
-/

namespace MathTree

open MathTree.Number

/-- A change of a forest that may fail. -/
abbrev Edit := ExceptT Fault (StateM Forest)

/-- What a fresh node is made from. -/
inductive Seed where
  | ofKind (kind : Kind)
  | ofForm (form : Form) (kind : Kind)
  | integer (value : Int32)
  | real (value : Binary64)
  | rational (numerator denominator : Int32)
  | exponential (mantissa : Binary64) (exponent : Int32)
  | identifier (name : String)
  | call (name : String)
  deriving DecidableEq, Repr

/-- The head of a fresh node, if its form allows its kind. -/
def Seed.head? : Seed → Except Fault Head
  | .ofKind kind => .ok (.ofKind kind)
  | .ofForm form kind =>
    if form.allows kind then .ok (.blank form kind) else .error (.kindRefused kind form)
  | .integer value => .ok (.integerLiteral value)
  | .real value => .ok (.realLiteral value)
  | .rational numerator denominator => .ok (.rationalLiteral numerator denominator)
  | .exponential mantissa exponent => .ok (.exponentialLiteral mantissa exponent)
  | .identifier name => .ok (.identifier name)
  | .call name => .ok (.call name)

namespace Forest

/-- Whether a node is a child of another that would be moved by being linked in again. -/
def isMovingWithin (f : Forest) (p child : NodeId) : Bool :=
  child != .placeholder && (f.positionOf p child).isSome

/-- The number of children that a node holds once a child has been taken away from wherever it is. -/
def roomTaken (f : Forest) (p child : NodeId) : Nat :=
  (f.children p).length - if f.isMovingWithin p child then 1 else 0

end Forest

namespace Edit

/-- Makes a node. -/
def plant (seed : Seed) : Edit NodeId := do
  let head ← seed.head?
  modifyGet (·.grow { head := head })

/-! ### Children -/

/-- Refuses a child for a leaf, and one that is the node itself or stands above it. -/
def checkAdopt (p child : NodeId) : Edit Unit := do
  let f ← get
  if (f.head p).isLeaf then throw (.childless (f.kind p))
  if child ∈ f.lineage p then throw .cycle

/-- Refuses one more child for a strict node that is full. -/
def checkRoom (p child : NodeId) : Edit Unit := do
  let f ← get
  match (f.head p).capacity with
  | some capacity =>
    let taken := f.roomTaken p child
    if capacity ≤ taken && (f.head p).strict then throw (.arity (f.kind p) capacity (taken + 1))
  | none => pure ()

/-- Moves a node below another.  The position counts once the node has been taken away from wherever
it is. -/
def insertAt (p : NodeId) (position : Nat) (child : NodeId) : Edit Unit := do
  checkAdopt p child
  checkRoom p child
  let count := (← get).roomTaken p child
  if count < position then throw (.outOfRange position count)
  modify fun f => (f.detach child).link p position child

/-- Moves a node behind the children of another. -/
def append (p child : NodeId) : Edit Unit := do
  insertAt p ((← get).roomTaken p child) child

/-- Moves a node before the children of another. -/
def prepend (p child : NodeId) : Edit Unit := insertAt p 0 child

/-- Lets go of the child that a node holds at a position. -/
def unlinkAt? (p : NodeId) (position : Nat) : Edit (Option NodeId) :=
  modifyGet fun f =>
    match f.unlinkAt? p position with
    | some (child, f) => (some child, f)
    | none => (none, f)

/-- Takes away the child that a node shows at a position, if there is one. -/
def removeAt (p : NodeId) (position : Nat) : Edit (Option NodeId) := do
  if (← get).childCount p ≤ position then return none
  unlinkAt? p position

/-- Puts a node in the place of the child that another shows at a position, and names the one that
was there.  A child that already is there stays. -/
def replaceAt (p : NodeId) (position : Nat) (child : NodeId) : Edit NodeId := do
  checkAdopt p child
  let f ← get
  let count := f.childCount p
  if count ≤ position then throw (.outOfRange position count)
  let current := if child = .placeholder then none else f.positionOf p child
  if current = some position then return child
  let target := if current.any (· < position) then position - 1 else position
  modify (·.detach child)
  match ← unlinkAt? p target with
  | some old =>
    modify (·.link p target child)
    return old
  | none => throw (.outOfRange target count)

/-- Takes a node away from its parent, if it has one. -/
def detach (n : NodeId) : Edit Unit := modify (·.detach n)

/-- Gives up the last hold on a node from outside.  A node that is held by a parent stays, and so
does the placeholder; any other is freed, and what it held is left on its own. -/
def drop (n : NodeId) : Edit Unit := do
  if n = .placeholder then return
  if ((← get).parent n).isSome then return
  modify (·.discard n)

/-- Gives up a node that was made for a purpose that failed.  It goes, unless a listener has been told
of it. -/
def giveUp (n : NodeId) : Edit Unit := do
  if (← get).isKnown n then return
  drop n

/-! ### Values

The placeholder takes none, and what is written into it is lost. -/

/-- Changes the kind of a node, within its form. -/
def setKind (n : NodeId) (kind : Kind) : Edit Unit := do
  let before := (← get).head n
  if !before.form.allows kind then throw (.kindRefused kind before.form)
  modify (·.modify n fun r => { r with head := { r.head with kind := kind } })
  modify (·.announceIfChanged n .kind (.kind before.kind) (.kind kind))

/-- Makes a node strict or lenient. -/
def setStrict (n : NodeId) (strict : Bool) : Edit Unit := do
  if n = .placeholder then return
  let before := (← get).head n
  modify (·.modify n fun r => { r with head := { r.head with strict := strict } })
  modify (·.announceIfChanged n .strict (.flag before.strict) (.flag strict))

/-- Writes a value into a node that can carry it. -/
def assign (n : NodeId) (assignment : Assignment) : Edit Unit := do
  if n = .placeholder then return
  let f ← get
  let aspect := Aspect.field assignment.field
  match (f.head n).assign? assignment with
  | none => throw (.unsupported (.write assignment.field) (f.kind n))
  | some head =>
    let before := f.datum n aspect
    modify (·.modify n ({ · with head := head }))
    modify fun f => f.announce n aspect before (f.datum n aspect)

/-! ### Listeners and containers -/

/-- Registers a listener on a node and all nodes below it. -/
def hear (n : NodeId) (listener : ListenerId) : Edit Unit := modify (·.hearBelow n listener)

/-- Takes a listener off a node and all nodes below it. -/
def unhear (n : NodeId) (listener : ListenerId) : Edit Unit := modify (·.unhearBelow n listener)

/-- Opens a container of a level and version. -/
def openContainer (level version : Nat) : Edit ContainerId :=
  modifyGet fun f =>
    (⟨f.containers.size⟩, { f with containers := f.containers.push { level, version } })

/-- Closes a container. -/
def closeContainer (c : ContainerId) : Edit Unit :=
  modify fun f =>
    { f with containers := f.containers.modify c.index ({ · with isOpen := false }) }

/-- Anchors a node and all nodes below it to a container. -/
def anchor (n : NodeId) (c : ContainerId) : Edit Unit := modify (·.anchorBelow n (some c))

/-- Frees a node and all nodes below it from their containers. -/
def unanchor (n : NodeId) : Edit Unit := modify (·.anchorBelow n none)

end Edit

end MathTree

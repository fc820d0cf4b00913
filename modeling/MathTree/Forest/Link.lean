import MathTree.Forest.Basic

/-!
# Links

How a node comes to hold another and how it lets it go.  Each link is kept at both ends, the children
of the one and the parent of the other, and `Forest.link` and `Forest.unlink` write both.  What
hangs on the link goes with it: a node that is linked in is anchored where its parent is and hears
the listeners of its parent, and one that is let go is anchored to nothing.  The placeholder is
listed by its parents and has none itself.
-/

namespace MathTree.Forest

/-! ### Notices -/

/-- Tells the listeners of a node that it changed in one respect. -/
def announce (f : Forest) (n : NodeId) (aspect : Aspect) (before after : Datum) : Forest :=
  let notices := (f.get n).listeners.map fun listener =>
    Notice.changed listener n aspect before after (f.childCount n)
  { f with journal := f.journal ++ notices.toArray }

/-- Tells the listeners of a node that it now holds another. -/
def announceAdded (f : Forest) (n child : NodeId) : Forest :=
  let notices := (f.get n).listeners.map fun listener => Notice.added listener child (f.parent child)
  { f with journal := f.journal ++ notices.toArray }

/-- Tells the listeners of a node that it no longer holds another. -/
def announceRemoved (f : Forest) (n child : NodeId) : Forest :=
  let notices := (f.get n).listeners.map fun listener =>
    Notice.removed listener child (f.parent child)
  { f with journal := f.journal ++ notices.toArray }

/-! ### Subtrees -/

/-- Changes the records of a whole subtree, save that of the placeholder. -/
def modifyBelow (f : Forest) (n : NodeId) (change : Record → Record) : Forest :=
  (f.members n).foldl (fun f m => f.modify m change) f

/-- Anchors a subtree to a container, or to nothing. -/
def anchorBelow (f : Forest) (n : NodeId) (container : Option ContainerId) : Forest :=
  f.modifyBelow n ({ · with container := container })

/-- Lets a subtree be heard by a listener. -/
def hearBelow (f : Forest) (n : NodeId) (listener : ListenerId) : Forest :=
  f.modifyBelow n (·.hear listener)

/-- Lets a subtree no longer be heard by a listener. -/
def unhearBelow (f : Forest) (n : NodeId) (listener : ListenerId) : Forest :=
  f.modifyBelow n (·.unhear listener)

/-! ### Counts -/

/-- How many children of a node have a kind. -/
def countChildren (f : Forest) (n : NodeId) (kind : Kind) : Nat :=
  (f.children n).countP (f.kind · = kind)

/-- Gives a node another payload. -/
def setPayload (f : Forest) (n : NodeId) (payload : Payload) : Forest :=
  f.modify n fun r => { r with head := { r.head with payload := payload } }

/-- Announces a change, if it is one. -/
def announceIfChanged (f : Forest) (n : NodeId) (aspect : Aspect) (before after : Datum) : Forest :=
  if before = after then f else f.announce n aspect before after

/-- Brings the counts of a `lambda` or a `piecewise` in line with its children. -/
def recount (f : Forest) (n : NodeId) : Forest :=
  match (f.head n).payload with
  | .lambda before =>
    let after := f.countChildren n (.qualifier .bvar)
    (f.setPayload n (.lambda after)).announceIfChanged n .boundCount (.count before) (.count after)
  | .piecewise casesBefore fallbackBefore =>
    let cases := f.countChildren n (.qualifier .piece)
    let fallback := f.countChildren n (.qualifier .otherwise) != 0
    (f.setPayload n (.piecewise cases fallback)).announceIfChanged n .caseCount
      (.count casesBefore) (.count cases)
      |>.announceIfChanged n .fallback (.flag fallbackBefore) (.flag fallback)
  | _ => f

/-! ### Linking and unlinking -/

/-- What a node that was linked in takes over from its new parent. -/
def settle (f : Forest) (p child : NodeId) : Forest :=
  if child = .placeholder then f
  else
    let r := f.get p
    let f := f.modify child ({ · with parent := some p })
    let f := if r.container.isSome then f.anchorBelow child r.container else f
    let f := r.listeners.foldl (fun f listener => f.hearBelow child listener) f
    f.announce child .parent .absent (.node p)

/-- Makes a node that has no parent the child of another at a position. -/
def link (f : Forest) (p : NodeId) (position : Nat) (child : NodeId) : Forest :=
  let f := f.modify p fun r => { r with children := r.children.insertIdx position child }
  ((f.settle p child).recount p).announceAdded p child

/-- What a node that was let go loses. -/
def release (f : Forest) (p child : NodeId) : Forest :=
  if child = .placeholder then f
  else
    let f := f.modify child ({ · with parent := none })
    (f.anchorBelow child none).announce child .parent (.node p) .absent

/-- Lets go of a child that a node holds at a position. -/
def unlink (f : Forest) (p : NodeId) (position : Nat) (child : NodeId) : Forest :=
  let f := f.modify p fun r => { r with children := r.children.eraseIdx position }
  ((f.release p child).recount p).announceRemoved p child

/-- Lets go of the child that a node holds at a position, and names it. -/
def unlinkAt? (f : Forest) (p : NodeId) (position : Nat) : Option (NodeId × Forest) :=
  ((f.children p)[position]?).map fun child => (child, f.unlink p position child)

/-- Takes a node away from its parent, if it has one. -/
def detach (f : Forest) (n : NodeId) : Forest :=
  match f.parent n with
  | none => f
  | some p =>
    match (f.positionOf p n).bind (f.unlinkAt? p) with
    | some (_, f) => f
    | none => f

/-- Breaks the links of a node with what it holds, and all else that hangs on it. -/
def loosen (f : Forest) (n : NodeId) : Forest :=
  let f' := ((f.children n).filter (· ≠ .placeholder)).foldl
    (fun f child => f.modify child ({ · with parent := none })) f
  f'.modify n fun r => { head := r.head }

/-- Frees a node that nothing holds: what it held is left on its own.  Nobody is told. -/
def discard (f : Forest) (n : NodeId) : Forest := (f.loosen n).recount n

/-- Whether a listener has been told of a node, so that it may hold it. -/
def isKnown (f : Forest) (n : NodeId) : Bool :=
  f.journal.toList.any fun notice => n ∈ notice.nodes

end MathTree.Forest

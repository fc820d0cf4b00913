import MathTree.Forest.Compose

/-!
# Actions

Everything that can be done to a forest, as data.  `Action.perform` does it and says what came of it,
and `Forest.run` does a list of actions one after the other, going on behind those that fail.
-/

namespace MathTree

/-- Something to do to a forest. -/
inductive Action where
  | plant (seed : Seed)
  | qualify (kind : Kind) (child : NodeId)
  | piece (value condition : NodeId)
  | compose (recipe : Recipe)
  | copy (node : NodeId)
  | append (parent child : NodeId)
  | prepend (parent child : NodeId)
  | insertAt (parent : NodeId) (position : Nat) (child : NodeId)
  | removeAt (parent : NodeId) (position : Nat)
  | replaceAt (parent : NodeId) (position : Nat) (child : NodeId)
  | detach (node : NodeId)
  | drop (node : NodeId)
  | setLeft (parent child : NodeId)
  | setRight (parent child : NodeId)
  | setOperand (parent child : NodeId)
  | addBound (parent parameter : NodeId)
  | setBody (parent body : NodeId)
  | addCase (parent value condition : NodeId)
  | setFallback (parent value : NodeId)
  | substitute (node : NodeId) (name : String) (argument : NodeId)
  | setKind (node : NodeId) (kind : Kind)
  | setStrict (node : NodeId) (strict : Bool)
  | assign (node : NodeId) (assignment : Assignment)
  | hear (node : NodeId) (listener : ListenerId)
  | unhear (node : NodeId) (listener : ListenerId)
  | openContainer (level version : Nat)
  | closeContainer (container : ContainerId)
  | anchor (node : NodeId) (container : ContainerId)
  | unanchor (node : NodeId)
  deriving DecidableEq, Repr

/-- What came of an action that did not fail. -/
inductive Outcome where
  | done
  | node (node : NodeId)
  | noNode
  | count (count : Nat)
  | container (container : ContainerId)
  deriving DecidableEq, Repr

namespace Action

/-- Does an action. -/
def perform : Action → Edit Outcome
  | .plant seed => .node <$> Edit.plant seed
  | .qualify kind child => .node <$> Edit.qualify kind child
  | .piece value condition => .node <$> Edit.piece value condition
  | .compose recipe => .node <$> Edit.compose recipe
  | .copy node => .node <$> Edit.copy node
  | .append parent child => (fun _ => .done) <$> Edit.append parent child
  | .prepend parent child => (fun _ => .done) <$> Edit.prepend parent child
  | .insertAt parent position child => (fun _ => .done) <$> Edit.insertAt parent position child
  | .removeAt parent position => (·.elim .noNode .node) <$> Edit.removeAt parent position
  | .replaceAt parent position child => .node <$> Edit.replaceAt parent position child
  | .detach node => (fun _ => .done) <$> Edit.detach node
  | .drop node => (fun _ => .done) <$> Edit.drop node
  | .setLeft parent child => (fun _ => .done) <$> Edit.setLeft parent child
  | .setRight parent child => (fun _ => .done) <$> Edit.setRight parent child
  | .setOperand parent child => (fun _ => .done) <$> Edit.setOperand parent child
  | .addBound parent parameter => (fun _ => .done) <$> Edit.addBound parent parameter
  | .setBody parent body => (fun _ => .done) <$> Edit.setBody parent body
  | .addCase parent value condition => (fun _ => .done) <$> Edit.addCase parent value condition
  | .setFallback parent value => (fun _ => .done) <$> Edit.setFallback parent value
  | .substitute node name argument => .count <$> Edit.substitute node name argument
  | .setKind node kind => (fun _ => .done) <$> Edit.setKind node kind
  | .setStrict node strict => (fun _ => .done) <$> Edit.setStrict node strict
  | .assign node assignment => (fun _ => .done) <$> Edit.assign node assignment
  | .hear node listener => (fun _ => .done) <$> Edit.hear node listener
  | .unhear node listener => (fun _ => .done) <$> Edit.unhear node listener
  | .openContainer level version => .container <$> Edit.openContainer level version
  | .closeContainer container => (fun _ => .done) <$> Edit.closeContainer container
  | .anchor node container => (fun _ => .done) <$> Edit.anchor node container
  | .unanchor node => (fun _ => .done) <$> Edit.unanchor node

/-- The nodes that an action is given. -/
def nodes : Action → List NodeId
  | .plant _ | .openContainer .. | .closeContainer _ => []
  | .qualify _ n | .copy n | .removeAt n _ | .detach n | .drop n => [n]
  | .setKind n _ | .setStrict n _ | .assign n _ | .hear n _ | .unhear n _ => [n]
  | .anchor n _ | .unanchor n => [n]
  | .piece m n | .append m n | .prepend m n | .insertAt m _ n | .replaceAt m _ n => [m, n]
  | .setLeft m n | .setRight m n | .setOperand m n | .addBound m n | .setBody m n => [m, n]
  | .setFallback m n | .substitute m _ n => [m, n]
  | .addCase p m n => [p, m, n]
  | .compose recipe => recipe.nodes

end Action

namespace Forest

/-- The forest after an action, also after one that failed. -/
def after (f : Forest) (action : Action) : Forest := (action.perform.run f).2

/-- The forest after some actions. -/
def run (f : Forest) (actions : List Action) : Forest := actions.foldl after f

/-- Whether an action is given nodes that have been made, as every action that can be asked for is:
a node is named by what made it. -/
def Admits (f : Forest) (action : Action) : Prop := ∀ n ∈ action.nodes, f.Has n

instance (f : Forest) (action : Action) : Decidable (f.Admits action) :=
  inferInstanceAs (Decidable (∀ n ∈ action.nodes, f.Has n))

/-- Whether each of some actions, done one after the other, meets a condition on it and on the forest
that it is done to. -/
def Along (Q : Forest → Action → Prop) (f : Forest) : List Action → Prop
  | [] => True
  | action :: actions => Q f action ∧ (f.after action).Along Q actions

instance (Q : Forest → Action → Prop) [∀ f action, Decidable (Q f action)] :
    ∀ f actions, Decidable (Along Q f actions)
  | _, [] => inferInstanceAs (Decidable True)
  | f, action :: actions =>
    have : Decidable ((f.after action).Along Q actions) := instDecidableAlong Q _ actions
    inferInstanceAs (Decidable (_ ∧ _))

/-- Whether a forest has a property, and has it again after each of some actions. -/
def Throughout (P : Forest → Prop) (f : Forest) : List Action → Prop
  | [] => P f
  | action :: actions => P f ∧ (f.after action).Throughout P actions

/-- The forests that can be reached from the first one. -/
inductive Reachable : Forest → Prop
  | start : Reachable start
  | after {f : Forest} {action : Action} (hf : Reachable f) (ha : f.Admits action) :
    Reachable (f.after action)

end Forest

end MathTree

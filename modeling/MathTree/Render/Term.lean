import MathTree.Render.Basic

/-!
# Terms

What text renderings share.  A `Term` is an operand with its text; how brackets are written is left
to the rendering.  Whether an operand is bracketed depends on the tree it comes from and never on its
text.
-/

namespace MathTree

/-- A rendering as text. -/
abbrev Rendition := Except Fault String

/-- An operand and its text. -/
abbrev Term := Operand Rendition

/-- Whether a term is bracketed as an operand: a sum, a difference or a negation is, and so is a
negative real literal. -/
def Tree.isLoose (t : Tree) : Bool :=
  match t.kind with
  | .plus | .minus => true
  | .real =>
    match t.head.real with
    | .ok value => value.isNegative
    | .error _ => false
  | _ => false

namespace Term

/-- A text, in brackets under a condition. -/
def enclosedIf (brackets : String → String) (condition : Bool) (text : String) : String :=
  if condition then brackets text else text

/-- An operand of a sum, a difference or a product. -/
def operand (brackets : String → String) (x : Term) : Rendition :=
  enclosedIf brackets x.tree.isLoose <$> x.result

/-- One side of a relation, bracketed if it is a relation itself. -/
def side (brackets : String → String) (x : Term) : Rendition :=
  enclosedIf brackets x.tree.kind.isRelational <$> x.result

/-- An operand that is bracketed if it shows more than a number of children. -/
def bracketedAbove (brackets : String → String) (children : Nat) (x : Term) : Rendition :=
  enclosedIf brackets (children < x.tree.childCount) <$> x.result

/-- The operands with a sign between them; the first one is never bracketed. -/
def chain (brackets : String → String) (sign : String) : List Term → Rendition
  | [] => .ok ""
  | x :: xs => do
    let first ← x.result
    let others ← xs.mapM (operand brackets)
    return first ++ String.join (others.map (sign ++ ·))

/-- Both sides of a relation with its sign between them. -/
def relation (brackets : String → String) (sign : String) (left right : Term) : Rendition := do
  let left ← left.side brackets
  let right ← right.side brackets
  return left ++ sign ++ right

/-- The texts with commas between them. -/
def arguments (xs : List Term) : Rendition := (", ".intercalate ·) <$> xs.mapM (·.result)

end Term

end MathTree

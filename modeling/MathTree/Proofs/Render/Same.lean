import Mathlib.Data.List.Basic
import MathTree.Proofs.Render.Canonical
import MathTree.Render.Formula
import MathTree.Render.Latex
import MathTree.Render.MathML

/-!
# Trees that are the same

The three renderings do not tell a number from its canonical one, so trees that are the same are
rendered alike, whatever the style (`same_equivalence`).
-/

namespace MathTree

open MathTree.Number

@[simp]
theorem Tree.isLoose_canonical (t : Tree) : t.canonical.isLoose = t.isLoose := by
  rw [isLoose, isLoose, kind_canonical, head_canonical, Head.real_canonical]
  cases t.kind with
  | real =>
    cases t.head.real with
    | error fault => rfl
    | ok x => exact Binary64.isNegative_canonical x
  | _ => rfl

namespace Operand

variable {β γ : Type}

@[simp]
theorem tree_canonical (x : Operand β) : x.canonical.tree = x.tree.canonical := rfl

@[simp]
theorem result_canonical (x : Operand β) : x.canonical.result = x.result := rfl

theorem mapM_canonical {f : Operand β → Except Fault γ} (hf : ∀ x : Operand β, f x.canonical = f x)
    (xs : List (Operand β)) : (xs.map canonical).mapM f = xs.mapM f := by
  have hcomp : f ∘ canonical = f := funext hf
  rw [List.mapM_map, hcomp]

end Operand

/-! ### Texts -/

namespace Term

variable (brackets : String → String) (sign : String) (x y : Term) (xs : List Term)

@[simp]
theorem operand_canonical : operand brackets (Operand.canonical x) = operand brackets x := by
  simp [operand]

@[simp]
theorem side_canonical : side brackets (Operand.canonical x) = side brackets x := by
  simp [side]

@[simp]
theorem bracketedAbove_canonical (n : Nat) :
    bracketedAbove brackets n (Operand.canonical x) = bracketedAbove brackets n x := by
  simp [bracketedAbove]

@[simp]
theorem arguments_canonical : arguments (xs.map Operand.canonical) = arguments xs := by
  rw [arguments, arguments, Operand.mapM_canonical Operand.result_canonical]

@[simp]
theorem chain_canonical :
    chain brackets sign (xs.map Operand.canonical) = chain brackets sign xs := by
  cases xs with
  | nil => rfl
  | cons x xs =>
    rw [List.map_cons, chain, chain, Operand.mapM_canonical (operand_canonical brackets),
      Operand.result_canonical]

@[simp]
theorem relation_canonical : relation brackets sign (Operand.canonical x) (Operand.canonical y)
    = relation brackets sign x y := by
  simp [relation]

end Term

namespace Formula

variable (style : Style)

@[simp]
theorem call_canonical (name : String) (xs : List Term) :
    call name (xs.map Operand.canonical) = call name xs := by
  rw [call, call, Term.arguments_canonical]

@[simp]
theorem elementary_canonical (f : Elementary) (x : Term) :
    elementary f (Operand.canonical x) = elementary f x := by
  cases f with
  | factorial => rfl
  | _ => exact call_canonical _ [x]

@[simp]
theorem connective_canonical (c : Connective) (xs : List Term) :
    connective style c (xs.map Operand.canonical) = connective style c xs := by
  rw [connective, connective, call_canonical,
    Operand.mapM_canonical (Term.bracketedAbove_canonical brackets · 0)]

@[simp]
theorem product_canonical (xs : List Term) : product (xs.map Operand.canonical) = product xs := by
  rw [product, product, Operand.mapM_canonical (f := operand) (Term.operand_canonical brackets)]

theorem ignoresCanonical : (renderer style).IgnoresCanonical := by
  intro r
  change form style (r.canonical.map Operand.canonical) = form style r
  cases r with
  | integer | rational | infinity | constant | avogadro | time | identifier | unknown => rfl
  | real value units =>
    simp only [Reading.canonical, Reading.map, form, Binary64.realText_canonical]
  | exponential mantissa exponent units =>
    simp only [Reading.canonical, Reading.map, form, Binary64.realText_canonical,
      Binary64.decimalText_canonical]
  | sum xs => exact Term.chain_canonical brackets "+" xs
  | difference x y => exact Term.chain_canonical brackets "-" [x, y]
  | product xs => exact product_canonical xs
  | connective c xs => exact connective_canonical style c xs
  | lambda xs | piecewise xs | call name xs => exact call_canonical _ xs
  | qualifier q xs => exact Term.arguments_canonical xs
  | delay name x lag => exact call_canonical name [x, lag]
  | not x => exact call_canonical "!" [x]
  | elementary f x => exact elementary_canonical f x
  | relation r x y => exact Term.relation_canonical brackets (relationSign r) x y
  | power | squareRoot => rfl
  | negation x => simp [Reading.canonical, Reading.map, form, operand]
  | quotient x y => simp [Reading.canonical, Reading.map, form, operand, denominator]
  | root degree radicand => simp [Reading.canonical, Reading.map, form]
  | logarithm base x =>
    simp only [Reading.canonical, Reading.map, form, Operand.tree_canonical,
      Tree.isLiteral_canonical]
    split
    · exact call_canonical _ [x]
    · exact call_canonical _ [base, x]

end Formula

namespace Latex

variable (style : Style)

theorem numberText_canonical (x : Binary64) : numberText x.canonical = numberText x := by
  rw [numberText, numberText, Binary64.realText_canonical]

@[simp]
theorem bracketsAbove_canonical (n : Nat) (x : Term) :
    bracketsAbove n (Operand.canonical x) = bracketsAbove n x :=
  x.bracketedAbove_canonical brackets n

@[simp]
theorem elementary_canonical (f : Elementary) (x : Term) :
    elementary f (Operand.canonical x) = elementary f x := by
  cases f <;> simp [elementary, application]

@[simp]
theorem product_canonical (xs : List Term) : product (xs.map Operand.canonical) = product xs := by
  rw [product, product, Operand.mapM_canonical (f := operand) (Term.operand_canonical brackets)]

@[simp]
theorem piecewise_canonical (xs : List Term) :
    piecewise (xs.map Operand.canonical) = piecewise xs := by
  rw [piecewise, piecewise, Operand.mapM_canonical Operand.result_canonical]

@[simp]
theorem lambda_canonical (xs : List Term) : lambda (xs.map Operand.canonical) = lambda xs := by
  rw [lambda, lambda, List.getLast?_map, ← List.map_dropLast, Term.arguments_canonical]
  cases xs.getLast? <;> rfl

@[simp]
theorem qualifier_canonical (q : Qualifier) (xs : List Term) :
    qualifier q (xs.map Operand.canonical) = qualifier q xs := by
  rcases xs with _ | ⟨x, _ | ⟨y, xs⟩⟩ <;> cases q <;> rfl

theorem ignoresCanonical : (renderer style).IgnoresCanonical := by
  intro r
  change form style (r.canonical.map Operand.canonical) = form style r
  cases r with
  | integer | rational | infinity | constant | avogadro | time | identifier | unknown => rfl
  | real value units =>
    simp only [Reading.canonical, Reading.map, form, numberText_canonical]
  | exponential mantissa exponent units =>
    simp only [Reading.canonical, Reading.map, form, numberText_canonical]
  | sum xs => exact Term.chain_canonical brackets "+" xs
  | difference x y => exact Term.chain_canonical brackets "-" [x, y]
  | product xs => exact product_canonical xs
  | connective c xs =>
    exact congrArg ((connectiveSign c).intercalate <$> ·)
      (Operand.mapM_canonical (fun x => bracketsAbove_canonical 0 x) xs)
  | lambda xs => exact lambda_canonical xs
  | piecewise xs => exact piecewise_canonical xs
  | call name xs =>
    cases xs with
    | nil => rfl
    | cons x xs =>
      exact congrArg ((fun text => command "mathtt" (nameText style name) ++ brackets text) <$> ·)
        (Term.arguments_canonical (x :: xs))
  | qualifier q xs => exact qualifier_canonical q xs
  | elementary f x => exact elementary_canonical f x
  | relation r x y => exact Term.relation_canonical brackets (relationSign r) x y
  | squareRoot | quotient | delay => rfl
  | negation x => simp [Reading.canonical, Reading.map, form, operand]
  | not x => simp [Reading.canonical, Reading.map, form]
  | power x y => simp [Reading.canonical, Reading.map, form]
  | root degree radicand => simp [Reading.canonical, Reading.map, form]
  | logarithm base x => simp [Reading.canonical, Reading.map, form]

end Latex

namespace MathML

open MathTree.Markup

theorem presentation_canonical (h : Head) : presentation h.canonical = presentation h := rfl

theorem emit_canonical (x : Part) : emit (Operand.canonical x) = emit x := by
  rw [emit, emit, Operand.tree_canonical, Tree.head_canonical, presentation_canonical,
    Operand.result_canonical]

theorem emitAll_canonical (xs : List Part) : emitAll (xs.map Operand.canonical) = emitAll xs := by
  induction xs with
  | nil => rfl
  | cons x xs ih =>
    have hcons (x : Part) (xs : List Part) : emitAll (x :: xs) = emit x >>= fun _ => emitAll xs := rfl
    rw [List.map_cons, hcons, hcons, emit_canonical, ih]

theorem apply_canonical (operator : String) (xs : List Part) :
    apply operator (xs.map Operand.canonical) = apply operator xs := by
  rw [apply, apply, emitAll_canonical]

theorem enclose_canonical (tag : String) (xs : List Part) :
    enclose tag (xs.map Operand.canonical) = enclose tag xs := by
  rw [enclose, enclose, emitAll_canonical]

theorem qualified_canonical (q : Qualifier) (x : Part) :
    qualified q (Operand.canonical x) = qualified q x := by
  rw [qualified, qualified, emit_canonical, Operand.tree_canonical, Tree.kind_canonical]

theorem ignoresCanonical : renderer.IgnoresCanonical := by
  intro r
  change form (r.canonical.map Operand.canonical) = form r
  cases r with
  | integer | rational | infinity | constant | avogadro | time | identifier | unknown => rfl
  | real value units =>
    simp only [Reading.canonical, Reading.map, form, Binary64.realText_canonical,
      Binary64.isNan_canonical]
  | exponential mantissa exponent units =>
    simp only [Reading.canonical, Reading.map, form, Binary64.realText_canonical]
  | sum xs | product xs | connective c xs => exact apply_canonical _ xs
  | difference x y | quotient x y | power x y | relation r x y => exact apply_canonical _ [x, y]
  | negation x | squareRoot x | not x | elementary f x => exact apply_canonical _ [x]
  | lambda xs | piecewise xs | qualifier q xs => exact enclose_canonical _ xs
  | call name xs => simp only [Reading.canonical, Reading.map, form, emitAll_canonical]
  | delay name x lag => simp only [Reading.canonical, Reading.map, form, emit_canonical]
  | root degree radicand =>
    simp only [Reading.canonical, Reading.map, form, emit_canonical, qualified_canonical,
      Operand.tree_canonical, Tree.isLiteral_canonical]
  | logarithm base x =>
    simp only [Reading.canonical, Reading.map, form, emit_canonical, qualified_canonical,
      Operand.tree_canonical, Tree.isLiteral_canonical]

theorem writeTree_canonical (t : Tree) : writeTree t.canonical = writeTree t := by
  have hoperand : t.canonical.operand renderer = (t.operand renderer).canonical :=
    congrArg (Operand.mk t.canonical) (t.render_canonical ignoresCanonical)
  rw [writeTree, writeTree, hoperand, emit_canonical]

theorem writeDocument_canonical (t : Tree) : writeDocument t.canonical = writeDocument t := by
  rw [writeDocument, writeDocument, writeTree_canonical, Tree.usesUnits_canonical]

end MathML

namespace Tree

/-- Whether two trees are rendered alike in every style, and agree in what is counted of them. -/
structure RendersAlike (a b : Tree) : Prop where
  formula : ∀ style, a.formula style = b.formula style
  latex : ∀ style, a.latex style = b.latex style
  mathElement : ∀ indent, a.mathElement indent = b.mathElement indent
  mathDocument : ∀ indent, a.mathDocument indent = b.mathDocument indent
  childCount : a.childCount = b.childCount
  isSquareRoot : a.isSquareRoot = b.isSquareRoot
  countKind : ∀ kind, a.countKind kind = b.countKind kind
  isLiteral : ∀ value, a.isLiteral value = b.isLiteral value

namespace RendersAlike

variable {a b c : Tree}

theorem refl (a : Tree) : a.RendersAlike a :=
  ⟨fun _ => rfl, fun _ => rfl, fun _ => rfl, fun _ => rfl, rfl, rfl, fun _ => rfl, fun _ => rfl⟩

theorem symm (h : a.RendersAlike b) : b.RendersAlike a :=
  ⟨fun style => (h.formula style).symm, fun style => (h.latex style).symm,
    fun indent => (h.mathElement indent).symm, fun indent => (h.mathDocument indent).symm,
    h.childCount.symm, h.isSquareRoot.symm, fun kind => (h.countKind kind).symm,
    fun value => (h.isLiteral value).symm⟩

theorem trans (h : a.RendersAlike b) (h' : b.RendersAlike c) : a.RendersAlike c where
  formula style := (h.formula style).trans (h'.formula style)
  latex style := (h.latex style).trans (h'.latex style)
  mathElement indent := (h.mathElement indent).trans (h'.mathElement indent)
  mathDocument indent := (h.mathDocument indent).trans (h'.mathDocument indent)
  childCount := h.childCount.trans h'.childCount
  isSquareRoot := h.isSquareRoot.trans h'.isSquareRoot
  countKind kind := (h.countKind kind).trans (h'.countKind kind)
  isLiteral value := (h.isLiteral value).trans (h'.isLiteral value)

end RendersAlike

theorem rendersAlike_canonical (t : Tree) : t.canonical.RendersAlike t where
  formula style := render_canonical (Formula.ignoresCanonical style) t
  latex style := render_canonical (Latex.ignoresCanonical style) t
  mathElement indent := congrArg (MathML.written indent) (MathML.writeTree_canonical t)
  mathDocument indent := congrArg (MathML.written indent) (MathML.writeDocument_canonical t)
  childCount := t.childCount_canonical
  isSquareRoot := t.isSquareRoot_canonical
  countKind kind := t.countKind_canonical kind
  isLiteral value := t.isLiteral_canonical value

/-- To be the same is an equivalence of trees, and trees that are the same are rendered alike, with the
same text or the same fault. -/
theorem same_equivalence : Equivalence (fun a b : Tree => a.same b) ∧
    ∀ a b : Tree, a.same b → a.RendersAlike b := by
  refine ⟨⟨fun a => same_iff.2 rfl, fun h => same_iff.2 (same_iff.1 h).symm,
    fun h h' => same_iff.2 ((same_iff.1 h).trans (same_iff.1 h'))⟩, fun a b h => ?_⟩
  have ha : a.canonical.RendersAlike a := a.rendersAlike_canonical
  rw [same_iff.1 h] at ha
  exact ha.symm.trans b.rendersAlike_canonical

/-- Sums of a zero and of bits that are no number.  The zeros differ in their sign, and so do the bits. -/
theorem same_equivalence_zero :
    let sum (zero other : Binary64) : Tree :=
      .node (.ofKind .plus) [leaf (.realLiteral zero), leaf (.realLiteral other)]
    let other : Binary64 := .withSign true (2047 * Nat.pow 2 52 + 1)
    let a := sum (.zero true) .nan
    let b := sum (.zero false) other
    (Binary64.zero true ≠ .zero false ∧ Binary64.nan ≠ other ∧ a.same b) ∧
      a.RendersAlike b ∧ b.formula = .ok "0+NaN" := by
  intro sum other a b
  have hsame : a.same b := by decide +kernel
  exact ⟨⟨by decide, by decide, hsame⟩, same_equivalence.2 a b hsame, by decide +kernel⟩

end Tree

end MathTree

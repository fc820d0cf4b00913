import MathTree.Forest.Action
import MathTree.Listing
import MathTree.Proofs.Action.Anchors
import MathTree.Proofs.Action.Arity
import MathTree.Proofs.Action.Compositions
import MathTree.Proofs.Action.Copies
import MathTree.Proofs.Action.Journal
import MathTree.Proofs.Action.Lambda
import MathTree.Proofs.Action.Pairs
import MathTree.Proofs.Action.Piecewise
import MathTree.Proofs.Action.Placeholder
import MathTree.Proofs.Action.Refusal
import MathTree.Proofs.Action.Rekinding
import MathTree.Proofs.Latex.Balanced
import MathTree.Proofs.Latex.Powers
import MathTree.Proofs.Markup.Layout
import MathTree.Proofs.Markup.Lossless
import MathTree.Proofs.Markup.Units
import MathTree.Proofs.Markup.WellFormed
import MathTree.Proofs.Render.Acceptance
import MathTree.Proofs.Render.Exact
import MathTree.Proofs.Render.ExponentOne
import MathTree.Proofs.Render.LeadingMinus
import MathTree.Proofs.Render.LeftComb
import MathTree.Proofs.Render.Literals
import MathTree.Proofs.Render.Looser
import MathTree.Proofs.Render.Unambiguous
import MathTree.Proofs.Substitution.Aliasing
import MathTree.Proofs.Text.Unmask
import MathTree.Render.Formula
import MathTree.Render.Latex
import MathTree.Render.MathML

import MathTree.Proofs.Render.Operands
import MathTree.Render.Formula
import MathTree.Render.Latex
import Mathlib.Data.List.Basic

/-!
# What texts draw on

A text is made of the texts of operands: it is given just if they are, and otherwise fails as one of
them failed (`Draws`).  Formulas draw on what is written (`Reading.written`), and LaTeX on every
operand of a node whose qualifiers are full (`Reading.Full`).
-/

namespace MathTree

/-! ### Drawing on parts -/

/-- Whether something can be made just if its parts can, and fails as one of them failed. -/
structure Draws {α β : Type} (made : Except Fault α) (parts : List (Except Fault β)) : Prop where
  succeeds : ∀ a, made = .ok a → ∀ x ∈ parts, ∃ b, x = .ok b
  fails : ∀ fault, made = .error fault → .error fault ∈ parts

namespace Draws

variable {α β γ : Type} {made : Except Fault α} {parts others : List (Except Fault β)}

theorem ok (a : α) : Draws (.ok a : Except Fault α) ([] : List (Except Fault β)) :=
  ⟨fun _ _ _ h => absurd h List.not_mem_nil, fun _ h => by cases h⟩

theorem self (x : Except Fault β) : Draws x [x] :=
  ⟨fun b hb _ hx => ⟨b, (List.mem_singleton.1 hx).trans hb⟩, fun _ h => List.mem_singleton.2 h.symm⟩

theorem map (h : Draws made parts) (f : α → γ) : Draws (f <$> made) parts := by
  cases made with
  | error fault => exact ⟨fun _ hc => (by cases hc), fun _ he => h.fails _ (by cases he; rfl)⟩
  | ok a => exact ⟨fun _ _ => h.succeeds a rfl, fun _ he => by cases he⟩

theorem bind {k : α → Except Fault γ} (h : Draws made parts) (hk : ∀ a, Draws (k a) others) :
    Draws (made >>= k) (parts ++ others) := by
  cases made with
  | error fault =>
    exact ⟨fun _ hc => (by cases hc),
      fun _ he => List.mem_append_left _ (h.fails _ (by cases he; rfl))⟩
  | ok a =>
    refine ⟨fun c hc x hx => ?_, fun fault he => List.mem_append_right _ ((hk a).fails fault he)⟩
    rcases List.mem_append.1 hx with hx | hx
    · exact h.succeeds a rfl x hx
    · exact (hk a).succeeds c hc x hx

theorem of_mem_iff (h : Draws made parts) (hmem : ∀ x, x ∈ others ↔ x ∈ parts) :
    Draws made others :=
  ⟨fun a ha x hx => h.succeeds a ha x ((hmem x).1 hx), fun _ he => (hmem _).2 (h.fails _ he)⟩

theorem mapM {f : γ → Except Fault α} {part : γ → Except Fault β} (h : ∀ x, Draws (f x) [part x])
    (xs : List γ) : Draws (xs.mapM f) (xs.map part) := by
  induction xs with
  | nil => exact .ok []
  | cons x xs ih =>
    rw [List.mapM_cons]
    exact (h x).bind fun y => ih.map fun ys => y :: ys

/-- Where parts can be made, the whole can. -/
theorem isOk (h : Draws made parts) (hparts : ∀ x ∈ parts, x.isOk) : made.isOk := by
  cases made with
  | ok a => rfl
  | error fault => cases hparts _ (h.fails fault rfl)

theorem isOk_iff (h : Draws made parts) : made.isOk ↔ ∀ x ∈ parts, x.isOk := by
  refine ⟨fun hmade x hx => ?_, h.isOk⟩
  cases made with
  | error fault => cases hmade
  | ok a =>
    obtain ⟨b, rfl⟩ := h.succeeds a rfl x hx
    rfl

/-- Where all parts but one can be made, what is made fails as that one. -/
theorem error_iff {x : Except Fault β} {fault : Fault} (h : Draws made parts) (hx : x ∈ parts)
    (hothers : ∀ y ∈ parts, y = x ∨ y.isOk) : made = .error fault ↔ x = .error fault := by
  have honly {fault : Fault} (hmade : made = .error fault) : x = .error fault := by
    rcases hothers _ (h.fails fault hmade) with hy | hy
    · exact hy.symm
    · cases hy
  refine ⟨honly, ?_⟩
  rintro rfl
  cases hmade : made with
  | ok a =>
    obtain ⟨b, hb⟩ := h.succeeds a hmade _ hx
    cases hb
  | error fault' =>
    cases honly hmade
    rfl

end Draws

/-! ### Terms -/

namespace Term

variable {brackets : String → String} {sign : String} (x y : Term) (xs : List Term)

theorem draws_operand : Draws (x.operand brackets) [x.result] := (Draws.self _).map _

theorem draws_bracketedAbove (n : Nat) : Draws (x.bracketedAbove brackets n) [x.result] :=
  (Draws.self _).map _

theorem draws_chain : Draws (chain brackets sign xs) (xs.map Operand.result) := by
  cases xs with
  | nil => exact .ok ""
  | cons x xs => exact (Draws.self _).bind fun _ => (Draws.mapM draws_operand xs).map _

theorem draws_relation : Draws (relation brackets sign x y) [x.result, y.result] :=
  ((Draws.self _).map _).bind fun _ => ((Draws.self _).map _).map _

theorem draws_results : Draws (xs.mapM (·.result)) (xs.map Operand.result) := by
  have hself (x : Term) : Draws x.result [Operand.result x] := .self _
  exact .mapM hself xs

theorem draws_arguments : Draws (arguments xs) (xs.map Operand.result) := (draws_results xs).map _

end Term

/-! ### Formulas and LaTeX -/

/-- The operands that are written, in whatever rendering: the base ten of a logarithm is left out. -/
def Reading.written : Reading Tree → List Tree
  | .logarithm base x => if base.isLiteral 10 then [x] else [base, x]
  | r => r.operands

theorem Reading.eq_of_refusal? {r : Reading Tree} {fault : Fault} (h : r.refusal? = some fault) :
    fault = .zerothRoot ∨ fault = .unknownNode := by
  cases r with
  | root degree radicand =>
    simp only [Reading.refusal?] at h
    split_ifs at h
    cases h
    exact .inl rfl
  | unknown =>
    cases h
    exact .inr rfl
  | _ => cases h

namespace Formula

variable (style : Style) {r : Reading Tree}

theorem draws_call (name : String) (xs : List Term) :
    Draws (call name xs) (xs.map Operand.result) :=
  (Term.draws_arguments xs).map _

theorem draws_elementary (f : Elementary) (x : Term) : Draws (elementary f x) [x.result] := by
  cases f with
  | factorial => exact (Draws.self _).map _
  | _ => exact draws_call _ [x]

theorem draws_connective (c : Connective) (xs : List Term) :
    Draws (connective style c xs) (xs.map Operand.result) := by
  rw [connective]
  split_ifs
  · exact draws_call _ xs
  · exact (Draws.mapM (fun x => x.draws_bracketedAbove 0) xs).map _

theorem form_of_refusal {fault : Fault} (h : r.refusal? = some fault) :
    form style (r.map (Tree.operand (renderer style))) = .error fault := by
  cases r with
  | root degree radicand =>
    simp only [Reading.refusal?] at h
    split_ifs at h with hzero
    cases h
    have htree : (degree.operand (renderer style)).tree = degree := rfl
    simp only [Reading.map, form, htree, if_pos hzero]
    rfl
  | unknown =>
    cases h
    rfl
  | _ => cases h

/-- What is not refused draws on what is written. -/
theorem draws_form (h : r.refusal? = none) :
    Draws (form style (r.map (Tree.operand (renderer style))))
      (r.written.map (Tree.render (renderer style))) := by
  have hresult (xs : List Tree) : xs.map (Tree.render (renderer style))
      = (xs.map (Tree.operand (renderer style))).map Operand.result := by
    simp [Tree.operand, Function.comp_def]
  cases r with
  | unknown => cases h
  | integer | real | rational | exponential | infinity | constant | avogadro | time | identifier =>
    exact .ok _
  | sum xs =>
    simp only [Reading.written, Reading.operands, hresult]
    exact Term.draws_chain _
  | product xs =>
    simp only [Reading.written, Reading.operands, hresult]
    exact (Draws.mapM Term.draws_operand _).map _
  | connective c xs =>
    simp only [Reading.written, Reading.operands, hresult]
    exact draws_connective style c _
  | lambda xs | piecewise xs | call name xs =>
    simp only [Reading.written, Reading.operands, hresult]
    exact draws_call _ _
  | qualifier q xs =>
    simp only [Reading.written, Reading.operands, hresult]
    exact Term.draws_arguments _
  | difference x y => exact Term.draws_chain [_, _]
  | relation r x y => exact Term.draws_relation _ _
  | delay name x lag => exact draws_call _ [_, _]
  | negation x => exact (Term.draws_operand _).map _
  | squareRoot x => exact (Draws.self _).map _
  | not x => exact draws_call _ [_]
  | elementary f x => exact draws_elementary f _
  | quotient x y => exact (Term.draws_operand _).bind fun _ => ((Draws.self _).map _).map _
  | power x y => exact (Draws.self _).bind fun _ => (Draws.self _).map _
  | root degree radicand =>
    simp only [Reading.refusal?] at h
    split_ifs at h with hzero
    have htree : (degree.operand (renderer style)).tree = degree := rfl
    simp only [Reading.map, form, htree, if_neg hzero]
    have hroot : Draws (do
        let radicand ← radicand.render (renderer style)
        let degree ← degree.render (renderer style)
        return brackets radicand ++ "^" ++ brackets ("1/" ++ brackets degree) : Rendition)
        [radicand.render (renderer style), degree.render (renderer style)] :=
      (Draws.self _).bind fun _ => (Draws.self _).map _
    exact hroot.of_mem_iff fun x => by simp [Reading.written, Reading.operands, or_comm]
  | logarithm base x =>
    have htree : (base.operand (renderer style)).tree = base := rfl
    simp only [Reading.map, form, htree, Reading.written]
    split_ifs
    · exact draws_call _ [_]
    · exact draws_call _ [_, _]

end Formula

/-- Whether a qualifier has as many parts as it may have when it is full. -/
def Reading.Full {α : Type} : Reading α → Prop
  | .qualifier .piece parts => ∃ value condition, parts = [value, condition]
  | .qualifier _ parts => ∃ x, parts = [x]
  | _ => True

theorem Reading.Full.map {α β : Type} {r : Reading α} (h : r.Full) (f : α → β) : (r.map f).Full := by
  cases r with
  | qualifier q xs =>
    cases q with
    | piece =>
      obtain ⟨value, condition, rfl⟩ := h
      exact ⟨_, _, rfl⟩
    | _ =>
      obtain ⟨x, rfl⟩ := h
      exact ⟨_, rfl⟩
  | _ => trivial

namespace Latex

variable (style : Style) {r : Reading Tree}

theorem draws_operand (x : Term) : Draws (operand x) [x.result] := x.draws_operand

theorem draws_bracketsAbove (n : Nat) (x : Term) : Draws (bracketsAbove n x) [x.result] :=
  x.draws_bracketedAbove n

theorem draws_application (f : Elementary) (x : Term) : Draws (application f x) [x.result] := by
  unfold application
  split_ifs
  · exact (draws_bracketsAbove 1 x).map _
  · exact (Draws.self _).map _

theorem draws_elementary (f : Elementary) (x : Term) : Draws (elementary f x) [x.result] := by
  cases f with
  | abs | ceiling | floor => exact (Draws.self _).map _
  | factorial => exact (draws_bracketsAbove 0 x).map _
  | _ => exact draws_application _ x

/-- The body comes last, though it is rendered first. -/
theorem draws_lambda (xs : List Term) : Draws (lambda xs) (xs.map Operand.result) := by
  unfold lambda
  cases h : xs.getLast? with
  | none =>
    obtain rfl := List.getLast?_eq_none_iff.1 h
    exact (Draws.ok "").bind fun body => (Term.draws_arguments []).map
      fun parameters => "\\lambda" ++ brackets parameters ++ " = " ++ body
  | some body =>
    have hdraws : Draws _ (body.result :: xs.dropLast.map Operand.result) :=
      (Draws.self body.result).bind fun text => (Term.draws_arguments xs.dropLast).map
        fun parameters => "\\lambda" ++ brackets parameters ++ " = " ++ text
    refine hdraws.of_mem_iff fun x => ?_
    rw [← List.dropLast_append_getLast? body h]
    simp [or_comm]

theorem draws_call (name : String) (xs : List Term) :
    Draws (form style (.call name xs)) (xs.map Operand.result) := by
  cases xs with
  | nil => exact .ok _
  | cons x xs => exact (Term.draws_arguments _).map _

theorem draws_qualifier {q : Qualifier} {xs : List Term} (h : (Reading.qualifier q xs).Full) :
    Draws (qualifier q xs) (xs.map Operand.result) := by
  cases q with
  | piece =>
    obtain ⟨value, condition, rfl⟩ := h
    exact (Draws.self _).bind fun _ => (Draws.self _).map _
  | bvar | degree | logbase =>
    obtain ⟨x, rfl⟩ := h
    exact .self _
  | otherwise =>
    obtain ⟨x, rfl⟩ := h
    exact (Draws.self _).map _

/-- LaTeX draws on every operand; it only refuses the zeroth root. -/
theorem draws_form (hzero : r.refusal? ≠ some .zerothRoot) (hfull : r.Full) :
    Draws (form style (r.map (Tree.operand (renderer style))))
      (r.operands.map (Tree.render (renderer style))) := by
  have hresult (xs : List Tree) : xs.map (Tree.render (renderer style))
      = (xs.map (Tree.operand (renderer style))).map Operand.result := by
    simp [Tree.operand, Function.comp_def]
  cases r with
  | integer | real | rational | exponential | infinity | constant | avogadro | time | identifier
  | unknown => exact .ok _
  | sum xs =>
    simp only [Reading.operands, hresult]
    exact Term.draws_chain _
  | product xs =>
    simp only [Reading.operands, hresult]
    exact (Draws.mapM draws_operand _).map _
  | connective c xs =>
    simp only [Reading.operands, hresult]
    exact (Draws.mapM (draws_bracketsAbove 0) _).map _
  | lambda xs =>
    simp only [Reading.operands, hresult]
    exact draws_lambda _
  | piecewise xs =>
    simp only [Reading.operands, hresult]
    exact (Term.draws_results _).map _
  | call name xs =>
    simp only [Reading.operands, hresult]
    exact draws_call style name _
  | qualifier q xs =>
    simp only [Reading.operands, hresult]
    exact draws_qualifier (hfull.map _)
  | difference x y => exact Term.draws_chain [_, _]
  | relation r x y => exact Term.draws_relation _ _
  | negation x => exact (draws_operand _).map _
  | squareRoot x => exact (Draws.self _).map _
  | not x => exact (draws_bracketsAbove 0 _).map _
  | elementary f x => exact draws_elementary f _
  | quotient x y | delay name x y => exact (Draws.self _).bind fun _ => (Draws.self _).map _
  | logarithm base x => exact (Draws.self _).bind fun _ => (draws_bracketsAbove 1 _).map _
  | power base exponent =>
    have htext (value exponent : String) : Draws (if exponent = "1" then pure value
        else pure (Term.enclosedIf brackets (2 ≤ base.childCount) value ++ "^" ++ group exponent) :
        Rendition) ([] : List Rendition) := by
      split_ifs <;> exact .ok _
    exact (Draws.self _).bind fun value => (Draws.self _).bind fun exponent => htext value exponent
  | root degree radicand =>
    have htree : (degree.operand (renderer style)).tree = degree := rfl
    have hdegree : ¬ degree.isLiteral 0 := fun h => hzero (if_pos h)
    simp only [Reading.map, form, htree, if_neg hdegree]
    exact (Draws.self _).bind fun _ => (Draws.self _).map _

theorem form_of_zerothRoot (h : r.refusal? = some .zerothRoot) :
    form style (r.map (Tree.operand (renderer style))) = .error .zerothRoot := by
  cases r with
  | root degree radicand =>
    simp only [Reading.refusal?] at h
    split_ifs at h with hzero
    have htree : (degree.operand (renderer style)).tree = degree := rfl
    simp only [Reading.map, form, htree, if_pos hzero]
    rfl
  | _ => cases h

end Latex

end MathTree

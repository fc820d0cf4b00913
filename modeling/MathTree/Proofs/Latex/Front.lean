import MathTree.Proofs.Number.Plain
import MathTree.Proofs.Render.Fronts
import MathTree.Proofs.Text.Mask

/-!
# What LaTeX starts with

The front of each node in LaTeX (`Latex.front`).  What is not written as a command starts with an
operand, a number or a name.
-/

namespace MathTree

open MathTree.Number

namespace Latex

variable {style : Style} {text : String}

/-- What LaTeX starts with. -/
def front (style : Style) : Reading Tree → Front
  | .sum xs | .qualifier _ xs => .first (fun _ => false) xs
  | .difference x _ => if x.latex style = .ok "" then .minus else .operand x
  | .negation _ => .minus
  | .product xs => .first Tree.isLoose xs
  | .power x exponent => .bare (exponent.latex style ≠ .ok "1" && 2 ≤ x.childCount) x
  | .relation _ x _ => .bare x.kind.isRelational x
  | .connective _ xs => .first (fun x => 0 < x.childCount) xs
  | .elementary .factorial x => .bare (0 < x.childCount) x
  | .integer value _ => .ofSign (value.toInt < 0)
  | .real value _ => .ofSign (StartsWithMinus value.realText)
  | .exponential mantissa _ _ => .ofSign (StartsWithMinus mantissa.realText)
  | .infinity negative => .ofSign negative
  | _ => .other

/-- No command starts with a minus sign. -/
theorem not_startsWithMinus_of_slash (h : text.toList.head? = some '\\') : ¬ StartsWithMinus text :=
  fun hminus => absurd (h.symm.trans hminus) (by decide)

theorem head?_command (name s : String) : (command name s).toList.head? = some '\\' :=
  head?_append (head?_append rfl name) _

theorem not_startsWithMinus_brackets (s : String) : ¬ StartsWithMinus (brackets s) :=
  not_startsWithMinus_of_slash (head?_append (head?_append rfl s) _)

theorem not_startsWithMinus_nameText {name : String} (h : IsFirmName name) :
    ¬ StartsWithMinus (nameText style name) := by
  unfold nameText
  split_ifs
  · cases hname : name.toList with
    | nil =>
      rw [String.toList_eq_nil_iff.1 hname]
      cases style.hyphenate <;> decide
    | cons c l =>
      obtain ⟨hc, hblank⟩ := h c (by rw [hname]; rfl)
      have hfirst : (Text.mask style.hyphenate name).toList.head? ∈ [some c, some '$', some '\\'] :=
        Text.head?_mask hname hblank
      intro hminus
      rw [hminus] at hfirst
      simp [Ne.symm hc] at hfirst
  · exact h.not_startsWithMinus

/-- A power of ten takes its sign from the mantissa. -/
theorem startsWithMinus_numberText (x : Binary64) :
    StartsWithMinus (numberText x) ↔ StartsWithMinus x.realText := by
  unfold numberText
  split
  next => rfl
  next mantissa exponent hsplit =>
    have hmark : "E".toList.head? = some 'E' := rfl
    have hdot : "\\cdot ".toList.head? = some '\\' := rfl
    rw [eq_of_splitScientific? hsplit, startsWithMinus_between hmark (by decide)]
    dsimp only
    split_ifs with hone hminus
    · have hten : "10^".toList.head? = some '1' := rfl
      rw [hone]
      exact iff_of_false (not_startsWithMinus_append hten (by decide) _) (by decide)
    · rw [hminus]
      exact iff_of_true (startsWithMinus_minus _) (by decide)
    · exact startsWithMinus_between hdot (by decide) _ _

theorem starts_power {x exponent : Tree}
    (h : form style (.power (x.operand (renderer style)) (exponent.operand (renderer style)))
      = .ok text) :
    (Front.bare (exponent.latex style ≠ .ok "1" && 2 ≤ x.childCount) x).Starts (renderer style) text
    := by
  obtain ⟨value, hvalue, h⟩ := exists_of_bind_eq_ok h
  obtain ⟨power, hpower, h⟩ := exists_of_bind_eq_ok h
  have hlatex : exponent.latex style = .ok power := hpower
  have hcaret : "^".toList.head? = some '^' := rfl
  rw [hlatex]
  split_ifs at h with hone
  · cases h
    rw [hone]
    exact ⟨text, hvalue, Iff.rfl⟩
  · cases h
    have hplain : (Except.ok power : Rendition) ≠ .ok "1" := fun heq => hone (Except.ok.inj heq)
    rw [decide_eq_true hplain, Bool.true_and]
    exact Front.starts_bare not_startsWithMinus_brackets hvalue
      (startsWithMinus_between hcaret (by decide) _ _)

/-- What starts as the first of some parts is written. -/
theorem starts_first_part {xs : List Tree} {value : String}
    (hvalue : first (xs.map (Tree.operand (renderer style))) = .ok value)
    (h : StartsWithMinus text ↔ StartsWithMinus value) :
    (Front.first (fun _ => false) xs).Starts (renderer style) text := by
  cases xs with
  | nil =>
    cases hvalue
    exact fun hminus => absurd (h.1 hminus) (by decide)
  | cons x xs => exact ⟨value, hvalue, h⟩

theorem starts_qualifier {q : Qualifier} {xs : List Tree}
    (h : qualifier q (xs.map (Tree.operand (renderer style))) = .ok text) :
    (Front.first (fun _ => false) xs).Starts (renderer style) text := by
  have hsign : " & ".toList.head? = some ' ' := rfl
  cases q with
  | bvar | degree | logbase => exact starts_first_part h Iff.rfl
  | piece =>
    obtain ⟨value, hvalue, h⟩ := exists_of_bind_eq_ok h
    refine starts_first_part hvalue ?_
    split at h
    · obtain ⟨condition, -, h⟩ := exists_of_bind_eq_ok h
      cases h
      rw [String.append_assoc, String.append_assoc]
      exact startsWithMinus_between hsign (by decide) _ _
    · cases h
      rfl
  | otherwise =>
    obtain ⟨value, hvalue, rfl⟩ := exists_of_map_eq_ok h
    exact starts_first_part hvalue (startsWithMinus_between hsign (by decide) _ _)

theorem starts_application {f : Elementary} {x : Term} (h : application f x = .ok text) :
    ¬ StartsWithMinus text := by
  unfold application at h
  split_ifs at h
  · obtain ⟨s, -, rfl⟩ := exists_of_map_eq_ok h
    exact not_startsWithMinus_of_slash (head?_command _ s)
  · obtain ⟨s, -, rfl⟩ := exists_of_map_eq_ok h
    exact not_startsWithMinus_of_slash (head?_append (head?_command _ _) _)

theorem starts_elementary {f : Elementary} {x : Tree}
    (h : elementary f (x.operand (renderer style)) = .ok text) :
    (front style (.elementary f x)).Starts (renderer style) text := by
  cases f with
  | abs | ceiling | floor =>
    obtain ⟨s, -, rfl⟩ := exists_of_map_eq_ok h
    exact not_startsWithMinus_of_slash (head?_append (head?_append rfl s) _)
  | factorial =>
    have hmark : ¬ StartsWithMinus "!" := by decide
    obtain ⟨a, ha, rfl⟩ := exists_of_map_eq_ok h
    obtain ⟨s, hs, rfl⟩ := exists_of_map_eq_ok ha
    exact Front.starts_bare not_startsWithMinus_brackets hs (startsWithMinus_append hmark)
  | _ => exact starts_application h

theorem head?_lambda {parts : List Term} (h : lambda parts = .ok text) :
    text.toList.head? = some '\\' := by
  have hwhole {body : String} (h : (do
      let parameters ← Term.arguments parts.dropLast
      return "\\lambda" ++ brackets parameters ++ " = " ++ body) = Except.ok text) :
      text.toList.head? = some '\\' := by
    obtain ⟨parameters, -, h⟩ := exists_of_bind_eq_ok h
    cases h
    exact head?_append (head?_append (head?_append rfl _) _) _
  unfold lambda at h
  cases hlast : parts.getLast? with
  | none =>
    rw [hlast] at h
    exact hwhole h
  | some part =>
    rw [hlast] at h
    obtain ⟨body, -, h⟩ := exists_of_bind_eq_ok h
    exact hwhole h

theorem head?_piecewise {parts : List Term} (h : piecewise parts = .ok text) :
    text.toList.head? = some '\\' := by
  obtain ⟨lines, -, h⟩ := exists_of_bind_eq_ok h
  cases h
  have hbegin : "\\begin".toList.head? = some '\\' := rfl
  exact head?_append (head?_append (head?_append (head?_append (head?_append hbegin _) _) _) _) _

theorem head?_call {name : String} {xs : List Term} (h : form style (.call name xs) = .ok text) :
    text.toList.head? = some '\\' := by
  cases xs with
  | nil =>
    cases h
    exact head?_command _ _
  | cons x xs =>
    obtain ⟨s, -, rfl⟩ := exists_of_map_eq_ok h
    exact head?_append (head?_command _ _) _

/-- The operand that a node starts with is one of its own. -/
theorem mem_operands_of_front {r : Reading Tree} {x : Tree} (h : front style r = .operand x) :
    x ∈ r.operands := by
  cases r with
  | sum xs | qualifier q xs | connective c xs | product xs => exact Front.mem_of_first h
  | difference x y =>
    simp only [front] at h
    split_ifs at h
    cases h
    exact List.mem_cons_self
  | power x y | relation c x y =>
    rw [Front.bare_eq_operand h]
    exact List.mem_cons_self
  | elementary f x =>
    cases f with
    | factorial =>
      rw [Front.bare_eq_operand h]
      exact List.mem_cons_self
    | _ => cases h
  | integer | real | exponential | infinity => exact absurd h Front.ofSign_ne_operand
  | _ => cases h

/-- A node starts as its front tells. -/
theorem starts_front {r : Reading Tree} (hnames : ∀ name ∈ r.names, IsFirmName name)
    (h : form style (r.map (Tree.operand (renderer style))) = .ok text) :
    (front style r).Starts (renderer style) text := by
  have hopen (s : String) : ¬ StartsWithMinus (brackets s) := not_startsWithMinus_brackets s
  cases r with
  | sum xs => exact starts_sum h
  | difference x y => exact starts_difference h
  | negation x =>
    obtain ⟨s, -, rfl⟩ := exists_of_map_eq_ok h
    exact startsWithMinus_minus s
  | product xs =>
    have hdot : "\\cdot ".toList.head? = some '\\' := rfl
    exact starts_first hopen (f := operand) (fun x => rfl) hdot (by decide) h
  | quotient x y =>
    obtain ⟨above, -, h⟩ := exists_of_bind_eq_ok h
    obtain ⟨below, -, h⟩ := exists_of_bind_eq_ok h
    cases h
    exact not_startsWithMinus_of_slash (head?_append (head?_append rfl _) _)
  | power x exponent => exact starts_power h
  | root degree x =>
    change (do
      if degree.isLiteral 0 then throw Fault.zerothRoot
      let degree ← degree.latex style
      let radicand ← x.latex style
      return "\\sqrt[" ++ degree ++ "]" ++ group radicand) = Except.ok text at h
    split_ifs at h
    · cases h
    · obtain ⟨degree, -, h⟩ := exists_of_bind_eq_ok h
      obtain ⟨radicand, -, h⟩ := exists_of_bind_eq_ok h
      cases h
      exact not_startsWithMinus_of_slash (head?_append (head?_append (head?_append rfl _) _) _)
  | squareRoot x =>
    obtain ⟨s, -, rfl⟩ := exists_of_map_eq_ok h
    exact not_startsWithMinus_of_slash (head?_command _ s)
  | logarithm base x =>
    obtain ⟨base, -, h⟩ := exists_of_bind_eq_ok h
    obtain ⟨x, -, h⟩ := exists_of_bind_eq_ok h
    cases h
    exact not_startsWithMinus_of_slash (head?_append (head?_append rfl _) _)
  | delay name x lag =>
    obtain ⟨x, -, h⟩ := exists_of_bind_eq_ok h
    obtain ⟨lag, -, h⟩ := exists_of_bind_eq_ok h
    cases h
    exact not_startsWithMinus_of_slash (head?_append (head?_command _ _) _)
  | relation r x y =>
    have hsign : (relationSign r).toList.head? = some ' ' := by cases r <;> rfl
    exact starts_relation hopen hsign (by decide) h
  | connective c xs =>
    have hsign : (connectiveSign c).toList.head? = some '\\' := by cases c <;> rfl
    exact starts_first hopen (fun x => rfl) hsign (by decide) h
  | not x =>
    obtain ⟨s, -, rfl⟩ := exists_of_map_eq_ok h
    exact not_startsWithMinus_of_slash (head?_append rfl s)
  | elementary f x => exact starts_elementary h
  | integer value units =>
    cases h
    exact Front.starts_ofSign (startsWithMinus_intText _)
  | real value units =>
    cases h
    exact Front.starts_ofSign (startsWithMinus_numberText value)
  | rational n d units =>
    cases h
    exact not_startsWithMinus_of_slash (head?_append (head?_append rfl _) _)
  | exponential mantissa exponent units =>
    have hdot : "\\cdot 10^".toList.head? = some '\\' := rfl
    cases h
    refine Front.starts_ofSign ?_
    rw [startsWithMinus_between hdot (by decide)]
    exact startsWithMinus_numberText mantissa
  | infinity negative =>
    cases h
    refine Front.starts_ofSign ?_
    cases negative <;> decide
  | constant c =>
    have hconstant : ¬ StartsWithMinus (constant c) := by cases c <;> decide
    cases h
    exact hconstant
  | avogadro name | identifier name =>
    have hname : ¬ StartsWithMinus (nameText style name) :=
      not_startsWithMinus_nameText (hnames name List.mem_cons_self)
    cases h
    exact hname
  | time name =>
    cases h
    exact not_startsWithMinus_of_slash (head?_command _ _)
  | lambda parts => exact not_startsWithMinus_of_slash (head?_lambda h)
  | piecewise parts => exact not_startsWithMinus_of_slash (head?_piecewise h)
  | call name xs => exact not_startsWithMinus_of_slash (head?_call h)
  | qualifier q parts => exact starts_qualifier h
  | unknown =>
    cases h
    exact not_startsWithMinus_of_slash (head?_command _ _)

theorem fronts_renderer (style : Style) : (renderer style).Fronts brackets (front style) where
  refuse := rfl
  not_brackets := not_startsWithMinus_brackets
  mem_operands _ _ := mem_operands_of_front
  real _ _ := rfl
  infinity _ := rfl
  starts _ _ := starts_front

end Latex

end MathTree

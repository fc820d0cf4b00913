import MathTree.Proofs.Render.Fronts

/-!
# What formulas start with

The front of each node of a formula (`Formula.front`).  A power starts with its base where it is
dropped, and else with a base that holds no minus sign or is bracketed.
-/

namespace MathTree

open MathTree.Number

namespace Formula

variable {style : Style} {text : String}

/-- Whether a formula drops an exponent because it reads as one. -/
def isOne (style : Style) (exponent : Tree) : Bool :=
  match exponent.formula style with
  | .ok text => (Decimal.ofText? text).any (·.same (.ofInt 1))
  | .error _ => false

/-- Whether a formula leaves a factor out because nothing is written for it. -/
def isLeftOut (style : Style) (factor : Tree) : Bool :=
  !factor.isLoose && factor.formula style = .ok ""

/-- What a formula starts with. -/
def front (style : Style) : Reading Tree → Front
  | .sum xs | .qualifier _ xs => .first (fun _ => false) xs
  | .difference x _ => if x.formula style = .ok "" then .minus else .operand x
  | .negation _ => .minus
  | .product xs => .first Tree.isLoose (xs.dropWhile (isLeftOut style))
  | .quotient x _ => .bare x.isLoose x
  | .power x exponent => .bare (!isOne style exponent) x
  | .relation _ x _ => .bare x.kind.isRelational x
  | .connective _ xs => .first (fun x => style.logicAsCalls || 0 < x.childCount) xs
  | .integer value _ => .ofSign (value.toInt < 0)
  | .real value _ => .ofSign (StartsWithMinus value.realText)
  | .exponential mantissa exponent _ =>
    .ofSign (StartsWithMinus (if exponent = 0 then mantissa.realText else mantissa.decimalText))
  | .infinity negative => .ofSign negative
  | _ => .other

theorem not_startsWithMinus_brackets (s : String) : ¬ StartsWithMinus (brackets s) := by
  have hopen : "(".toList.head? = some '(' := rfl
  rw [brackets, String.append_assoc]
  exact not_startsWithMinus_append hopen (by decide) _

theorem starts_call {name : String} {xs : List Term} (hname : ¬ StartsWithMinus name)
    (h : call name xs = .ok text) : ¬ StartsWithMinus text := by
  obtain ⟨s, -, rfl⟩ := exists_of_map_eq_ok h
  rwa [startsWithMinus_append (not_startsWithMinus_brackets s)]

theorem not_startsWithMinus_functionName (f : Elementary) : ¬ StartsWithMinus (functionName f) := by
  cases f <;> decide

theorem not_startsWithMinus_fractionPart (n : Int32) : ¬ StartsWithMinus (fractionPart n) := by
  unfold fractionPart
  by_cases hn : n < 0
  · rw [decide_eq_true hn]
    exact not_startsWithMinus_brackets _
  · rw [decide_eq_false hn]
    exact fun h => hn (Int32.lt_iff_toInt_lt.2 ((startsWithMinus_intText _).1 h))

theorem isLeftOut_iff {x : Tree} {s : String} (hx : x.formula style = .ok s) :
    isLeftOut style x ↔ Term.enclosedIf brackets x.isLoose s = "" := by
  have hbrackets : brackets s ≠ "" := fun h =>
    absurd ((brackets_renderer {}).longer s) (by rw [h]; exact Nat.not_lt_zero _)
  unfold isLeftOut
  rw [hx]
  cases x.isLoose with
  | true => exact iff_of_false Bool.false_ne_true hbrackets
  | false => simp [Term.enclosedIf]

/-- What is written for factors, is written for those behind the ones at the front that are left
out. -/
theorem exists_of_factors {xs : List Tree} {texts : List String}
    (h : (xs.map (Tree.operand (renderer style))).mapM operand = .ok texts) :
    ∃ others, ((xs.dropWhile (isLeftOut style)).map (Tree.operand (renderer style))).mapM operand
        = .ok others ∧ texts.filter (· ≠ "") = others.filter (· ≠ "") := by
  induction xs generalizing texts with
  | nil => exact ⟨texts, h, rfl⟩
  | cons x xs ih =>
    rw [List.dropWhile_cons]
    split_ifs with hx
    · rw [List.map_cons, List.mapM_cons] at h
      obtain ⟨a, ha, h⟩ := exists_of_bind_eq_ok h
      obtain ⟨texts', htexts, h⟩ := exists_of_bind_eq_ok h
      obtain ⟨s, hs, rfl⟩ := exists_of_map_eq_ok ha
      cases h
      obtain ⟨others, hothers, hfilter⟩ := ih htexts
      have hempty : Term.enclosedIf brackets (x.operand (renderer style)).tree.isLoose s = "" :=
        (isLeftOut_iff hs).1 hx
      exact ⟨others, hothers, by rw [hempty, ← hfilter]; rfl⟩
    · exact ⟨texts, h, rfl⟩

theorem starts_product {xs : List Tree}
    (h : product (xs.map (Tree.operand (renderer style))) = .ok text) :
    (Front.first Tree.isLoose (xs.dropWhile (isLeftOut style))).Starts (renderer style) text := by
  have hsign : "*".toList.head? = some '*' := rfl
  obtain ⟨texts, htexts, h⟩ := exists_of_bind_eq_ok h
  obtain ⟨others, hothers, hfilter⟩ := exists_of_factors htexts
  cases h
  rw [hfilter]
  cases hxs : xs.dropWhile (isLeftOut style) with
  | nil =>
    rw [hxs] at hothers
    cases hothers
    exact (by decide : ¬ StartsWithMinus "")
  | cons x xs' =>
    rw [hxs, List.map_cons, List.mapM_cons] at hothers
    obtain ⟨a, ha, hothers⟩ := exists_of_bind_eq_ok hothers
    obtain ⟨rest, -, hothers⟩ := exists_of_bind_eq_ok hothers
    obtain ⟨s, hs, rfl⟩ := exists_of_map_eq_ok ha
    cases hothers
    have hkept : ¬ isLeftOut style x := by
      have := List.head?_dropWhile_not (isLeftOut style) xs
      rw [hxs] at this
      simpa using this
    have hne : Term.enclosedIf brackets (x.operand (renderer style)).tree.isLoose s ≠ "" :=
      fun h => hkept ((isLeftOut_iff hs).2 h)
    rw [List.filter_cons_of_pos (by simpa using hne), intercalate_cons]
    exact Front.starts_bare not_startsWithMinus_brackets hs
      (startsWithMinus_row hsign (by decide) _ _)

theorem same_one_of_isZero {d : Decimal} (h : d.isZero) : d.same (.ofInt 1) = false := by
  have hm : d.mantissa = 0 := eq_of_beq h
  have hone : Decimal.ofInt 1 = ⟨false, 1, 0⟩ := rfl
  have hten : (10 : Int) ^ d.scale ≠ 0 := pow_ne_zero _ (by decide)
  rw [Decimal.same, hone]
  simp [Decimal.scaledTo, hm, hten.symm]

theorem not_startsWithMinus_power (base power : String) :
    ¬ StartsWithMinus (Term.enclosedIf brackets (holdsOperator base) base ++ "^" ++ power) := by
  have hsign : "^".toList.head? = some '^' := rfl
  rw [startsWithMinus_between hsign (by decide)]
  cases hholds : holdsOperator base with
  | true => exact not_startsWithMinus_brackets base
  | false =>
    intro hminus
    have hnone := List.any_eq_false.1 hholds '-' (List.mem_of_head? hminus)
    exact absurd hnone (by decide)

theorem starts_power {x exponent : Tree}
    (h : form style (.power (x.operand (renderer style)) (exponent.operand (renderer style)))
      = .ok text) :
    (Front.bare (!isOne style exponent) x).Starts (renderer style) text := by
  obtain ⟨base, hbase, h⟩ := exists_of_bind_eq_ok h
  obtain ⟨power, hpower, h⟩ := exists_of_bind_eq_ok h
  have hformula : exponent.formula style = .ok power := hpower
  have hone : isOne style exponent = (Decimal.ofText? power).any (·.same (.ofInt 1)) := by
    rw [isOne, hformula]
  have htext : text = powerText base power := (Except.ok.inj h).symm
  rw [hone, htext, powerText]
  cases Decimal.ofText? power with
  | none => exact not_startsWithMinus_power base _
  | some d =>
    rw [Option.any_some]
    dsimp only
    by_cases hsame : d.same (.ofInt 1)
    · have hzero : ¬ d.isZero := fun hzero => by
        rw [same_one_of_isZero hzero] at hsame
        cases hsame
      rw [if_neg hzero, if_pos hsame, hsame]
      exact ⟨base, hbase, Iff.rfl⟩
    · rw [if_neg hsame, Bool.eq_false_of_not_eq_true hsame]
      split_ifs
      · exact (by decide : ¬ StartsWithMinus "1")
      · exact not_startsWithMinus_power base _

theorem starts_connective {c : Connective} {xs : List Tree}
    (h : connective style c (xs.map (Tree.operand (renderer style))) = .ok text) :
    (Front.first (fun x => style.logicAsCalls || 0 < x.childCount) xs).Starts (renderer style) text
    := by
  unfold connective at h
  split_ifs at h with hcalls
  · have hname : ¬ StartsWithMinus c.elementName := by cases c <;> decide
    rw [hcalls]
    cases xs <;> exact starts_call hname h
  · have hsign : (connectiveSign c).toList.head? = some ' ' := by cases c <;> rfl
    rw [Bool.eq_false_of_not_eq_true hcalls]
    exact starts_first not_startsWithMinus_brackets (fun x => rfl) hsign (by decide) h

/-- The operand that a node starts with is one of its own. -/
theorem mem_operands_of_front {r : Reading Tree} {x : Tree} (h : front style r = .operand x) :
    x ∈ r.operands := by
  cases r with
  | sum xs | qualifier q xs | connective c xs => exact Front.mem_of_first h
  | product xs => exact (List.dropWhile_sublist _).subset (Front.mem_of_first h)
  | difference x y =>
    simp only [front] at h
    split_ifs at h
    cases h
    exact List.mem_cons_self
  | quotient x y | power x y | relation c x y =>
    rw [Front.bare_eq_operand h]
    exact List.mem_cons_self
  | integer | real | exponential | infinity => exact absurd h Front.ofSign_ne_operand
  | _ => cases h

/-- A node starts as its front tells. -/
theorem starts_front {r : Reading Tree} (hnames : ∀ name ∈ r.names, IsFirmName name)
    (h : form style (r.map (Tree.operand (renderer style))) = .ok text) :
    (front style r).Starts (renderer style) text := by
  have hopen (s : String) : ¬ StartsWithMinus (brackets s) := not_startsWithMinus_brackets s
  have hslash : "/".toList.head? = some '/' := rfl
  have hcaret : "^".toList.head? = some '^' := rfl
  cases r with
  | sum xs => exact starts_sum h
  | difference x y => exact starts_difference h
  | negation x =>
    obtain ⟨s, -, rfl⟩ := exists_of_map_eq_ok h
    exact startsWithMinus_minus s
  | product xs => exact starts_product h
  | quotient x y =>
    obtain ⟨above, habove, h⟩ := exists_of_bind_eq_ok h
    obtain ⟨below, -, h⟩ := exists_of_bind_eq_ok h
    obtain ⟨s, hs, rfl⟩ := exists_of_map_eq_ok habove
    cases h
    exact Front.starts_bare hopen hs (startsWithMinus_between hslash (by decide) _ below)
  | power x exponent => exact starts_power h
  | root degree x =>
    change (do
      if degree.isLiteral 0 then throw Fault.zerothRoot
      let radicand ← x.formula style
      let degree ← degree.formula style
      return brackets radicand ++ "^" ++ brackets ("1/" ++ brackets degree)) = Except.ok text at h
    split_ifs at h
    · cases h
    · obtain ⟨radicand, -, h⟩ := exists_of_bind_eq_ok h
      obtain ⟨degree, -, h⟩ := exists_of_bind_eq_ok h
      cases h
      exact (startsWithMinus_between hcaret (by decide) _ _).not.2 (hopen radicand)
  | squareRoot x =>
    obtain ⟨s, -, rfl⟩ := exists_of_map_eq_ok h
    have hpower : ¬ StartsWithMinus "^(0.5)" := by decide
    exact (startsWithMinus_append hpower).not.2 (hopen s)
  | logarithm base x =>
    have hname : ¬ StartsWithMinus "log10" ∧ ¬ StartsWithMinus "log" := by decide
    simp only [renderer, form, Reading.map] at h
    split_ifs at h
    · exact starts_call hname.1 h
    · exact starts_call hname.2 h
  | delay name x lag => exact starts_call (hnames name List.mem_cons_self).not_startsWithMinus h
  | relation r x y =>
    have hsign : (relationSign r).toList.head? = some ' ' := by cases r <;> rfl
    exact starts_relation hopen hsign (by decide) h
  | connective c xs => exact starts_connective h
  | not x => exact starts_call (by decide) h
  | elementary f x =>
    have hname := not_startsWithMinus_functionName f
    cases f with
    | factorial =>
      obtain ⟨s, -, rfl⟩ := exists_of_map_eq_ok h
      have hmark : ¬ StartsWithMinus "!" := by decide
      exact (startsWithMinus_append hmark).not.2 (hopen s)
    | _ => exact starts_call hname h
  | integer value units =>
    cases h
    exact Front.starts_ofSign (startsWithMinus_intText _)
  | real value units =>
    cases h
    exact Front.starts_ofSign Iff.rfl
  | rational n d units =>
    cases h
    exact (startsWithMinus_between hslash (by decide) _ _).not.2
      (not_startsWithMinus_fractionPart n)
  | exponential mantissa exponent units =>
    cases h
    refine Front.starts_ofSign ?_
    split_ifs
    · rfl
    · exact startsWithMinus_between rfl (by decide) _ _
  | infinity negative =>
    cases h
    refine Front.starts_ofSign ?_
    cases negative <;> decide
  | constant c =>
    have hconstant : ¬ StartsWithMinus (constant c) := by cases c <;> decide
    cases h
    exact hconstant
  | avogadro name | time name | identifier name =>
    have hname := (hnames name List.mem_cons_self).not_startsWithMinus
    cases h
    exact hname
  | lambda parts | piecewise parts => exact starts_call (by decide) h
  | call name xs => exact starts_call (hnames name List.mem_cons_self).not_startsWithMinus h
  | qualifier q parts => exact starts_arguments hopen h
  | unknown => cases h

theorem fronts_renderer (style : Style) : (renderer style).Fronts brackets (front style) where
  refuse := rfl
  not_brackets := not_startsWithMinus_brackets
  mem_operands _ _ := mem_operands_of_front
  real _ _ := rfl
  infinity _ := rfl
  starts _ _ := starts_front

end Formula

end MathTree

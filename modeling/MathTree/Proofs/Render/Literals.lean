import MathTree.Proofs.Number.Whole
import MathTree.Proofs.Markup.Failure
import MathTree.Proofs.Render.Acceptance
import MathTree.Proofs.Render.Canonical

/-!
# What literals stand for

A literal is compared with a whole number by its decimal, which may have been rounded.  `Head.Denotes` says
which number it stands for exactly, and `Head.Denotes.compares_iff` that the comparison tells that number
from every other, unless its power of ten leaves the decimals (`Head.Strays`).  Then a literal that is not
zero is taken for zero, or zero is not.

The same holds of degrees: a root is rendered as a square root just if its degree is two, and refused
for its degree just if that is zero or is taken for it.  That it fails otherwise only as its radicand does
(`Tree.render_rootOf_error_iff`) follows for both kinds of text from what texts draw on, and for content
MathML from the faults of drafts.
-/

namespace MathTree

open MathTree.Number MathTree.Markup

/-! ### Comparing literals -/

namespace Head

variable {h : Head} {r : Option ℚ} {x : Binary64} {v n d e : Int32} {m : Int} {units : Option String}

theorem isLiteral_integer (hp : h.payload = .integer (some v) units) (k : Int) :
    h.isLiteral k ↔ v.toInt = k := by
  rw [isLiteral_eq, literal?, hp, Option.any_some, Decimal.ofInt_same_iff]

theorem isLiteral_rational (hp : h.payload = .rational (some n) (some d) units) (k : Int) :
    h.isLiteral k ↔ d ≠ 0 ∧ n.toInt = k * d.toInt := by
  rw [isLiteral_eq, literal?, hp]
  dsimp only
  split_ifs with hd
  · exact iff_of_false nofun fun hne => hne.1 hd
  · have hne : d.toInt ≠ 0 := fun hzero => hd (Int32.toInt_inj.1 hzero)
    have hn := And.intro n.le_toInt n.toInt_lt
    have hd' := And.intro d.le_toInt d.toInt_lt
    rw [Decimal.quotient?_same_iff (by omega) (by omega) hne]
    exact (and_iff_right hd).symm

theorem isLiteral_exponential (hp : h.payload = .exponential x (some e) units) (hx : x.IsWhole m)
    (hm : m.natAbs < 2 ^ 53) {k : Int} (hk : k.natAbs ≤ 2 ^ 63) :
    (h.isLiteral k ↔ (m : ℚ) * 10 ^ e.toInt = k) ↔
      ¬ (k = 0 ∧ (m = 0 ∧ 28 < e.toInt ∨ m ≠ 0 ∧ e.toInt < -28)) := by
  rw [isLiteral_eq, literal?, hp]
  exact Decimal.expand_same_iff hx hm hk

theorem eq_of_isLiteral {k k' : Int} (hk : h.isLiteral k) (hk' : h.isLiteral k') : k = k' := by
  rw [isLiteral_eq, Option.any_eq_true] at hk hk'
  obtain ⟨d, hd, hsame⟩ := hk
  obtain ⟨d', hd', hsame'⟩ := hk'
  obtain rfl : d = d' := Option.some_inj.1 (hd.symm.trans hd')
  exact Decimal.eq_of_same hsame hsame'

/-! ### What literals stand for -/

/-- The number that a literal stands for, which is none for a fraction whose denominator is zero.  A
mantissa is a whole number that fifty-three digits can hold. -/
inductive Denotes (h : Head) : Option ℚ → Prop
  | integer {v : Int32} {units : Option String} (hp : h.payload = .integer (some v) units) :
      Denotes h (some v.toInt)
  | rational {n d : Int32} {units : Option String}
      (hp : h.payload = .rational (some n) (some d) units) :
      Denotes h (if d = 0 then none else some ((n.toInt : ℚ) / d.toInt))
  | exponential {x : Binary64} {e : Int32} {m : Int} {units : Option String}
      (hp : h.payload = .exponential x (some e) units) (hx : x.IsWhole m)
      (hm : m.natAbs < 2 ^ 53) :
      Denotes h (some ((m : ℚ) * 10 ^ e.toInt))

/-- Whether the power of ten of a literal leaves the decimals, so that a mantissa other than zero comes
to zero, or the mantissa zero to nothing. -/
def Strays (h : Head) : Prop :=
  ∃ x e units, h.payload = .exponential x (some e) units ∧
    (x.IsWhole 0 ∧ 28 < e.toInt ∨ ¬ x.IsWhole 0 ∧ e.toInt < -28)

theorem strays_iff (hp : h.payload = .exponential x (some e) units) (hx : x.IsWhole m) :
    h.Strays ↔ m = 0 ∧ 28 < e.toInt ∨ m ≠ 0 ∧ e.toInt < -28 := by
  have hzero : x.IsWhole 0 ↔ m = 0 := ⟨fun h0 => hx.unique h0, fun hm => hm ▸ hx⟩
  constructor
  · rintro ⟨x', e', units', hp', hstray⟩
    rw [hp] at hp'
    cases hp'
    rwa [hzero] at hstray
  · intro hstray
    exact ⟨x, e, units, hp, by rwa [hzero]⟩

theorem not_strays {form : Form} (hform : h.form = form) (hne : form ≠ .exponential) : ¬ h.Strays := by
  rintro ⟨x, e, units, hp, -⟩
  exact hne (hform.symm.trans (congrArg Payload.form hp))

theorem Denotes.isLiteral_iff (hr : h.Denotes r) (k : Int64) :
    (h.isLiteral k.toInt ↔ r = some (k.toInt : ℚ)) ↔ ¬ (k = 0 ∧ h.Strays) := by
  cases hr with
  | integer hp =>
    have hstrays : ¬ h.Strays := not_strays (congrArg Payload.form hp) nofun
    rw [isLiteral_integer hp, Option.some_inj, Int.cast_inj]
    exact iff_of_true Iff.rfl fun hk => hstrays hk.2
  | @rational n d units hp =>
    have hstrays : ¬ h.Strays := not_strays (congrArg Payload.form hp) nofun
    rw [isLiteral_rational hp]
    refine iff_of_true ?_ fun hk => hstrays hk.2
    split_ifs with hd
    · exact iff_of_false (fun hne => hne.1 hd) nofun
    · have hne : (d.toInt : ℚ) ≠ 0 := Int.cast_ne_zero.2 fun hzero => hd (Int32.toInt_inj.1 hzero)
      rw [and_iff_right hd, Option.some_inj, div_eq_iff hne]
      exact_mod_cast Iff.rfl
  | exponential hp hx hm =>
    have hrange := And.intro k.le_toInt k.toInt_lt
    have hk : k = 0 ↔ k.toInt = 0 := Int64.toInt_inj.symm
    rw [strays_iff hp hx, Option.some_inj, hk]
    exact isLiteral_exponential hp hx hm (by omega)

theorem Denotes.isLiteral_two_iff (hr : h.Denotes r) : h.isLiteral 2 ↔ r = some 2 :=
  (hr.isLiteral_iff 2).2 fun hk => absurd hk.1 (by decide)

theorem Denotes.isLiteral_zero_iff (hr : h.Denotes r) :
    h.isLiteral 0 ↔ (r = some 0 ↔ ¬ h.Strays) := by
  have hiff : (h.isLiteral 0 ↔ r = some 0) ↔ ¬ h.Strays := by simpa using hr.isLiteral_iff 0
  rw [← hiff]
  by_cases hzero : r = some 0 <;> simp [hzero]

theorem Denotes.isSet (hr : h.Denotes r) : h.payload.IsSet := by
  cases hr with
  | integer hp =>
    rw [hp]
    exact rfl
  | rational hp =>
    rw [hp]
    exact ⟨rfl, rfl⟩
  | exponential hp hx _ =>
    obtain ⟨negative, s, q, hvalue, -⟩ := hx
    rw [hp]
    exact ⟨by rw [Binary64.isNan, hvalue]; rfl, rfl⟩

end Head

namespace Tree

variable {t degree radicand : Tree}

/-! ### Roots -/

/-- What a root of a degree is read as. -/
abbrev rootOf (degree radicand : Tree) : Reading Tree :=
  Head.rootReading (·.isLiteral 2) degree radicand

theorem reading?_root {y : Tree} (hk : t.kind = .root) (hs : t.shown = [y, radicand]) :
    t.reading? = .ok (rootOf y.content radicand) := by
  have hk' : t.head.kind = .root := hk
  simp only [reading?, Head.reading?, hk', hs]
  rfl

theorem refusal?_rootOf : (rootOf degree radicand).refusal?
    = if degree.isLiteral 0 then some .zerothRoot else none := by
  rw [rootOf, Head.rootReading]
  split_ifs with htwo hzero
  · exact absurd (Head.eq_of_isLiteral hzero htwo) (by decide)
  · rfl
  · rw [Reading.refusal?, if_pos ‹_›]
  · rw [Reading.refusal?, if_neg ‹_›]

theorem mem_operands_rootOf : radicand ∈ (rootOf degree radicand).operands := by
  rw [rootOf, Head.rootReading]
  split_ifs <;> simp [Reading.operands]

theorem eq_of_mem_operands_rootOf {x : Tree} (hx : x ∈ (rootOf degree radicand).operands) :
    x = radicand ∨ x = degree := by
  rw [rootOf, Head.rootReading] at hx
  split_ifs at hx <;> simp_all [Reading.operands, or_comm]

theorem written_rootOf : (rootOf degree radicand).written = (rootOf degree radicand).operands := by
  rw [rootOf, Head.rootReading]
  split_ifs <;> rfl

theorem full_rootOf : (rootOf degree radicand).Full := by
  rw [rootOf, Head.rootReading]
  split_ifs <;> trivial

/-- Where all of its operands but the radicand can be rendered, a root is refused for its degree, or
fails as the radicand does. -/
theorem render_rootOf_error_iff {β : Type} {R : Renderer (Except Fault β)}
    (hzero : degree.isLiteral 0 → R.form ((rootOf degree radicand).map (operand R)) = .error .zerothRoot)
    (hdraws : ¬ degree.isLiteral 0 → Draws (R.form ((rootOf degree radicand).map (operand R)))
      ((rootOf degree radicand).operands.map (render R)))
    (hdegree : (degree.render R).isOk) :
    R.form ((rootOf degree radicand).map (operand R)) = .error .zerothRoot ↔
      degree.isLiteral 0 ∨ radicand.render R = .error .zerothRoot := by
  by_cases h : degree.isLiteral 0
  · exact iff_of_true (hzero h) (.inl h)
  · rw [or_iff_right h]
    refine (hdraws h).error_iff (List.mem_map_of_mem mem_operands_rootOf) fun made hmade => ?_
    obtain ⟨x, hx, rfl⟩ := List.mem_map.1 hmade
    rcases eq_of_mem_operands_rootOf hx with rfl | rfl
    · exact .inl rfl
    · exact .inr hdegree

variable {y : Tree}

theorem formula_root_error_iff {style : Formula.Style} (hk : t.kind = .root)
    (hs : t.shown = [y, radicand]) (hdegree : (y.content.formula style).isOk) :
    t.formula style = .error .zerothRoot ↔
      y.content.isLiteral 0 ∨ radicand.formula style = .error .zerothRoot := by
  rw [formula, render_of_ok _ (reading?_root hk hs)]
  refine render_rootOf_error_iff (fun h => Formula.form_of_refusal style ?_) (fun h => ?_) hdegree
  · rw [refusal?_rootOf, if_pos h]
  · rw [← written_rootOf]
    exact Formula.draws_form style (by rw [refusal?_rootOf, if_neg h])

theorem latex_root_error_iff {style : Latex.Style} (hk : t.kind = .root)
    (hs : t.shown = [y, radicand]) (hdegree : (y.content.latex style).isOk) :
    t.latex style = .error .zerothRoot ↔
      y.content.isLiteral 0 ∨ radicand.latex style = .error .zerothRoot := by
  rw [latex, render_of_ok _ (reading?_root hk hs)]
  refine render_rootOf_error_iff (fun h => Latex.form_of_zerothRoot style ?_) (fun h => ?_) hdegree
  · rw [refusal?_rootOf, if_pos h]
  · exact Latex.draws_form style (by rw [refusal?_rootOf, if_neg h]; exact (Option.some_ne_none _).symm)
      full_rootOf

theorem fault?_draft_rootOf {waiting : List Attribute} (hzero : ¬ degree.isLiteral 0)
    (hdegree : degree.element.isOk) :
    fault? (MathML.draft ((rootOf degree radicand).map (operand MathML.drafter)) waiting)
      = fault? radicand.element := by
  have helement (x : Tree) : MathML.elementOf (x.operand MathML.drafter) = x.element := rfl
  have htree : (degree.operand MathML.drafter).tree = degree := rfl
  rw [rootOf, Head.rootReading]
  split_ifs with htwo
  · simp [Reading.map, MathML.draft, MathML.operation, MathML.applied, MathML.elementsOf, helement]
  · have hqualification : fault? (MathML.qualification .degree (degree.operand MathML.drafter)) = none :=
      fault?_of_isOk (by rwa [MathML.isOk_qualification])
    simp [Reading.map, MathML.draft, htree, hzero, MathML.applied, MathML.elementsOf, helement,
      hqualification]

theorem mathDocument_root_error_iff {indent : Nat} (hk : t.kind = .root)
    (hs : t.shown = [y, radicand]) (hdegree : y.content.element.isOk) :
    t.mathDocument indent = .error .zerothRoot ↔
      y.content.isLiteral 0 ∨ radicand.mathDocument indent = .error .zerothRoot := by
  rw [mathDocument_eq_error_iff, mathDocument_eq_error_iff]
  by_cases h : y.content.isLiteral 0
  · have hrefusal : t.refusal? = some .zerothRoot := by
      rw [refusal?, reading?_root hk hs]
      exact refusal?_rootOf.trans (if_pos h)
    rw [element, elementWith_of_refusal hrefusal]
    exact iff_of_true rfl (.inl h)
  · have hfault : fault? t.element = fault? radicand.element := by
      rw [element, elementWith_of_ok _ (reading?_root hk hs), fault?_draft_rootOf h hdegree]
    rw [hfault, or_iff_right h]

end Tree

/-- Literals are compared exactly, unless their power of ten leaves the decimals, and so are degrees: any
renderer is given a square root just for the degree two, and a root is refused as a zeroth root just for
the degree zero, or for one that comes to zero, if its radicand is not. -/
theorem Head.Denotes.compares_iff {h : Head} {r : Option ℚ} (hr : h.Denotes r) :
    (∀ k : Int64, (h.isLiteral k.toInt ↔ r = some (k.toInt : ℚ)) ↔ ¬ (k = 0 ∧ h.Strays)) ∧
    ∀ t y radicand : Tree, t.kind = .root → t.shown = [y, radicand] → y.content.head = h → h.Sound →
      (∀ (β : Type) (R : Renderer β), t.render R = R.form (
        if r = some 2 then .squareRoot (radicand.operand R)
        else .root (y.content.operand R) (radicand.operand R))) ∧
      (∀ style, t.formula style = .error .zerothRoot ↔
        (r = some 0 ↔ ¬ h.Strays) ∨ radicand.formula style = .error .zerothRoot) ∧
      (∀ style, t.latex style = .error .zerothRoot ↔
        (r = some 0 ↔ ¬ h.Strays) ∨ radicand.latex style = .error .zerothRoot) ∧
      ∀ indent, t.mathDocument indent = .error .zerothRoot ↔
        (r = some 0 ↔ ¬ h.Strays) ∨ radicand.mathDocument indent = .error .zerothRoot := by
  refine ⟨hr.isLiteral_iff, ?_⟩
  rintro t y radicand hk hs rfl hsound
  have hset := hr.isSet
  have hdegree (style : Formula.Style) (style' : Latex.Style) :
      (y.content.formula style).isOk ∧ (y.content.latex style').isOk :=
    Tree.IsSound.isOk_of_isSet hsound hset
  have hzero : y.content.isLiteral 0 ↔ (r = some 0 ↔ ¬ y.content.head.Strays) := hr.isLiteral_zero_iff
  refine ⟨fun β R => ?_, fun style => ?_, fun style => ?_, fun indent => ?_⟩
  · have htwo : y.content.isLiteral 2 ↔ r = some 2 := hr.isLiteral_two_iff
    rw [Tree.render_of_ok R (Tree.reading?_root hk hs), Tree.rootOf, Head.rootReading]
    simp only [htwo]
    split_ifs <;> rfl
  · rw [Tree.formula_root_error_iff hk hs (hdegree style {}).1, hzero]
  · rw [Tree.latex_root_error_iff hk hs (hdegree {} style).2, hzero]
  · rw [Tree.mathDocument_root_error_iff hk hs ((Tree.isOk_formula_iff _ _).1 (hdegree {} {}).1), hzero]

/-- A root of the degree two, written in e-notation, is a square root. -/
theorem Head.compares_iff_two :
    let h := exponentialLiteral ⟨0x4000000000000000⟩ 0
    let x := Tree.leaf (.identifier "x")
    let t : Tree := .node (.ofKind .root) [Tree.leaf h, x]
    (h.Denotes (some ((2 : Int) * 10 ^ (0 : Int32).toInt)) ∧ t.kind = .root ∧
      t.shown = [Tree.leaf h, x] ∧ (Tree.leaf h).content.head = h ∧ h.Sound) ∧
    h.isLiteral 2 ∧
    (∀ (β : Type) (R : Renderer β), t.render R = R.form (.squareRoot (x.operand R))) ∧
    t.formula ≠ .error .zerothRoot := by
  intro h x t
  have hwhole : Binary64.IsWhole ⟨0x4000000000000000⟩ 2 :=
    ⟨false, 2 ^ 52, -51, by decide, by norm_num [signed]⟩
  have hr : h.Denotes (some ((2 : Int) * 10 ^ (0 : Int32).toInt)) :=
    .exponential rfl hwhole (by decide)
  have hsound : h.Sound := rfl
  have hvalue : (some ((2 : Int) * 10 ^ (0 : Int32).toInt) : Option ℚ) = some 2 := by
    rw [Int32.toInt_zero]
    norm_num
  have hstrays : ¬ h.Strays := by
    rw [strays_iff rfl hwhole]
    decide
  obtain ⟨hexact, hroots⟩ := Denotes.compares_iff hr
  obtain ⟨hrender, hformula, -⟩ := hroots t (Tree.leaf h) x rfl rfl rfl hsound
  refine ⟨⟨hr, rfl, rfl, rfl, hsound⟩, ?_, fun β R => ?_, fun herror => ?_⟩
  · exact ((hexact 2).2 fun hk => hstrays hk.2).2 hvalue
  · rw [hrender, if_pos hvalue]
  · rcases (hformula {}).1 herror with hzero | hx
    · rw [hvalue] at hzero
      exact absurd (hzero.2 hstrays) (by simp)
    · cases hx

/-- A degree so small that it is taken for zero, so that the root is refused. -/
theorem Head.exists_denotes_not_exact :
    let h := exponentialLiteral .one (-29)
    let t : Tree := .node (.ofKind .root) [Tree.leaf h, Tree.leaf (.identifier "x")]
    h.Denotes (some ((1 : Int) * 10 ^ (-29 : Int32).toInt)) ∧
    ((1 : Int) * 10 ^ (-29 : Int32).toInt : ℚ) ≠ 0 ∧ h.isLiteral 0 ∧
    t.formula = .error .zerothRoot ∧ t.latex = .error .zerothRoot ∧
    t.mathDocument = .error .zerothRoot := by
  intro h t
  have hwhole : Binary64.IsWhole .one 1 := ⟨false, 2 ^ 52, -52, by decide, by norm_num [signed]⟩
  have hzero : h.isLiteral 0 := by decide +kernel
  refine ⟨.exponential rfl hwhole (by decide), ?_, hzero, ?_, ?_, ?_⟩
  · exact mul_ne_zero one_ne_zero (zpow_ne_zero _ (by norm_num))
  · decide +kernel
  · decide +kernel
  · decide +kernel

end MathTree

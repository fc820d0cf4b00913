import MathTree.Proofs.Action.Kinds
import MathTree.Proofs.Markup.Draft
import MathTree.Proofs.Render.Draws

/-!
# Which trees can be rendered

Formulas and content MathML draw on the same operands, in whatever order, and refuse the same nodes,
so they accept the same trees (`Tree.isOk_formula_iff`).  LaTeX draws on every operand, also on the
base ten of a logarithm, which the others leave out but which can always be rendered, and it has a
text for what is unknown (`Tree.latex_follows_formula`).
-/

namespace MathTree

open MathTree.Number MathTree.Markup

/-! ### Content MathML -/

namespace MathML

variable {waiting : List Attribute} {tag : String} {r : Reading Tree}

@[simp]
theorem isOk_ok {ε α : Type} (a : α) : (Except.ok a : Except ε α).isOk = true := rfl

@[simp]
theorem isOk_error {ε α : Type} (e : ε) : (Except.error e : Except ε α).isOk = false := rfl

@[simp]
theorem isOk_around (content : Except Halt (List Element)) :
    (around tag waiting content).isOk = content.isOk := by
  cases content <;> rfl

@[simp]
theorem isOk_followedBy (first : Except Halt Element) (others : Except Halt (List Element)) :
    (followedBy first others).isOk = (first.isOk && others.isOk) := by
  cases first <;> cases others <;> rfl

@[simp]
theorem isOk_elementOf (x : Tree) : (elementOf (x.operand drafter)).isOk = x.element.isOk := rfl

@[simp]
theorem isOk_elementsOf_nil : (elementsOf []).isOk = true := rfl

@[simp]
theorem isOk_elementsOf_cons (x : Draft) (xs : List Draft) :
    (elementsOf (x :: xs)).isOk = ((elementOf x).isOk && (elementsOf xs).isOk) :=
  isOk_followedBy _ _

theorem isOk_elementsOf (xs : List Tree) :
    (elementsOf (xs.map (Tree.operand drafter))).isOk ↔ ∀ x ∈ xs, x.element.isOk := by
  induction xs with
  | nil => simp
  | cons x xs ih => simp [ih]

@[simp]
theorem isOk_qualification (q : Qualifier) (x : Tree) :
    (qualification q (x.operand drafter)).isOk = x.element.isOk := by
  unfold qualification
  split_ifs <;> simp

/-- Content MathML takes what is written and refuses what formulas refuse. -/
theorem isOk_draft_iff : (draft (r.map (Tree.operand drafter)) waiting).isOk ↔
    r.refusal? = none ∧ ∀ x ∈ r.written, x.element.isOk := by
  cases r with
  | sum | product | connective | lambda | piecewise | call | qualifier =>
    simp [Reading.map, draft, operation, applied, Reading.refusal?, Reading.written,
      Reading.operands, isOk_elementsOf]
  | infinity negative => cases negative <;> simp [Reading.map, draft, applied, Reading.refusal?,
      Reading.written, Reading.operands]
  | root degree radicand =>
    have htree : (degree.operand drafter).tree = degree := rfl
    simp only [Reading.map, draft, htree]
    split_ifs with hzero <;>
      simp [applied, Reading.refusal?, Reading.written, Reading.operands, hzero]
  | logarithm base x =>
    have htree : (base.operand drafter).tree = base := rfl
    simp only [Reading.map, draft, htree]
    split_ifs with hten <;> simp [applied, Reading.refusal?, Reading.written, hten]
  | _ =>
    simp [Reading.map, draft, operation, applied, Reading.refusal?, Reading.written,
      Reading.operands]

end MathML

/-! ### Readings of sound nodes -/

theorem Number.Decimal.isNan_of_ofBinary64? {x : Binary64} {d : Decimal}
    (h : ofBinary64? x = some d) : x.isNan = false := by
  unfold ofBinary64? at h
  unfold Binary64.isNan
  cases hx : x.value with
  | nan =>
    rw [hx] at h
    cases h
  | infinite | finite => rfl

/-- Whether a number has all its values. -/
def Payload.IsSet : Payload → Prop
  | .integer value _ => value.isSome
  | .real _ _ => True
  | .rational numerator denominator _ => numerator.isSome ∧ denominator.isSome
  | .exponential mantissa exponent _ => mantissa.isNan = false ∧ exponent.isSome
  | _ => False

namespace Head

variable {α : Type} {h : Head} {isTwo : α → Bool} {slots : List (Slot α)} {r : Reading α}

/-- A qualifier is read only when it is full. -/
theorem Sound.full (hs : h.Sound) (hr : h.reading? isTwo slots = .ok r) : r.Full := by
  cases hk : h.kind with
  | qualifier q =>
    simp only [reading?, hk] at hr
    obtain ⟨parts, hparts, rfl⟩ := exists_of_map_eq_ok hr
    obtain ⟨rfl, hlen⟩ := full_eq_ok hparts
    have hform := hs.form_eq (by rw [hk]; exact Kind.noConfusion)
    rw [capacity, hform, hk] at hlen
    cases q with
    | piece => exact List.length_eq_two.1 hlen
    | _ => exact List.length_eq_one_iff.1 hlen
  -- no other kind is read as a qualifier
  | plus | times | connective | lambda | piecewise | constant | unknown =>
    simp only [reading?, hk] at hr
    cases hr
    trivial
  | divide | power | log | relation | not | elementary | name | time | avogadro | call =>
    simp only [reading?, hk] at hr
    obtain ⟨_, -, rfl⟩ := exists_of_map_eq_ok hr
    trivial
  | root =>
    simp only [reading?, hk] at hr
    obtain ⟨_, -, rfl⟩ := exists_of_map_eq_ok hr
    unfold rootReading
    split <;> trivial
  | minus =>
    simp only [reading?, hk] at hr
    split at hr <;>
    · obtain ⟨_, -, rfl⟩ := exists_of_map_eq_ok hr
      trivial
  | real =>
    simp only [reading?, hk] at hr
    split at hr <;>
    · cases hr
      trivial
  | integer =>
    simp only [reading?, hk] at hr
    obtain ⟨_, -, hr⟩ := exists_of_bind_eq_ok hr
    cases hr
    trivial
  | delay | rational | exponential =>
    simp only [reading?, hk] at hr
    obtain ⟨_, -, hr⟩ := exists_of_bind_eq_ok hr
    obtain ⟨_, -, hr⟩ := exists_of_bind_eq_ok hr
    cases hr
    trivial

/-- A number with all its values can be read as one, whatever stands below. -/
theorem Sound.reading?_of_isSet (hs : h.Sound) (hset : h.payload.IsSet) :
    ∃ r, h.reading? isTwo slots = .ok r ∧ r.operands = [] ∧ r ≠ .unknown := by
  have hkind {form : Form} {kind : Kind} (hform : h.form = form) (hkinds : form.kinds = [kind]) :
      h.kind = kind := by
    have hmem : h.kind ∈ h.form.kinds := by simpa [Sound, Form.allows] using hs
    rwa [hform, hkinds, List.mem_singleton] at hmem
  unfold Payload.IsSet at hset
  split at hset
  next value units hp =>
    have hk : h.kind = .integer := hkind (congrArg Payload.form hp) rfl
    obtain ⟨v, rfl⟩ := Option.isSome_iff_exists.1 hset
    refine ⟨.integer v h.units?, ?_, rfl, fun hr => by cases hr⟩
    simp only [reading?, hk, integer, hp]
    rfl
  next value units hp =>
    have hk : h.kind = .real := hkind (congrArg Payload.form hp) rfl
    simp only [reading?, hk]
    split <;> exact ⟨_, rfl, rfl, fun hr => by cases hr⟩
  next numerator denominator units hp =>
    have hk : h.kind = .rational := hkind (congrArg Payload.form hp) rfl
    obtain ⟨⟨n, rfl⟩, d, rfl⟩ := hset.imp Option.isSome_iff_exists.1 Option.isSome_iff_exists.1
    refine ⟨.rational n d h.units?, ?_, rfl, fun hr => by cases hr⟩
    simp only [reading?, hk, Head.numerator, Head.denominator, hp]
    rfl
  next mantissa exponent units hp =>
    have hk : h.kind = .exponential := hkind (congrArg Payload.form hp) rfl
    obtain ⟨hm, e, rfl⟩ := hset.imp_right Option.isSome_iff_exists.1
    refine ⟨.exponential mantissa e h.units?, ?_, rfl, fun hr => by cases hr⟩
    have hmantissa : h.mantissa = .ok mantissa := by
      simp only [Head.mantissa, hp, Payload.mantissa?, Option.map_some, setReal, hm]
      rfl
    simp only [reading?, hk, hmantissa, Head.exponent, hp]
    rfl
  next => exact hset.elim

/-- What is known to be a number has all its values. -/
theorem isSet_of_literal? {d : Decimal} (hd : h.literal? = some d) : h.payload.IsSet := by
  unfold literal? at hd
  split at hd
  next hp =>
    rw [hp]
    exact rfl
  next hp =>
    rw [hp]
    trivial
  next hp =>
    rw [hp]
    exact ⟨rfl, rfl⟩
  next hp =>
    obtain ⟨m, hm, -⟩ := Option.bind_eq_some_iff.1 hd
    rw [hp]
    exact ⟨Decimal.isNan_of_ofBinary64? hm, rfl⟩
  next => cases hd

end Head

/-! ### Trees -/

namespace Tree

variable {t : Tree} {r : Reading Tree} {style : Formula.Style} {style' : Latex.Style}

theorem All.operands {P : Tree → Prop} (h : t.All P) (hr : t.reading? = .ok r) :
    ∀ x ∈ r.operands, x.All P := by
  intro x hx
  obtain ⟨u, hu, hxu⟩ := mem_operands hr hx
  cases h with
  | intro _ below =>
    have hu := below u hu
    rcases hxu with rfl | rfl
    · exact hu
    · rcases content_cases u with he | hmem
      · rwa [he]
      · cases hu with
        | intro _ below => exact below _ hmem

theorem mem_operands_of_mem_written {x : Tree} (h : x ∈ r.written) : x ∈ r.operands := by
  unfold Reading.written at h
  split at h
  · split_ifs at h
    · exact List.mem_cons_of_mem _ h
    · exact h
  · exact h

/-- What is not written is the base ten of a logarithm. -/
theorem mem_written_or_isLiteral {x : Tree} (h : x ∈ r.operands) :
    x ∈ r.written ∨ x.isLiteral 10 := by
  cases r with
  | logarithm base y =>
    rw [Reading.written]
    split_ifs with hten
    · rcases List.mem_cons.1 h with rfl | h
      · exact .inr hten
      · exact .inl h
    · exact .inl h
  | _ => exact .inl h

/-- A number with all its values can be rendered. -/
theorem IsSound.isOk_of_isSet (h : t.IsSound) (hset : t.head.payload.IsSet) :
    (t.formula style).isOk ∧ (t.latex style').isOk := by
  obtain ⟨r, hr, hoperands, hknown⟩ : ∃ r, t.reading? = .ok r ∧ r.operands = [] ∧ r ≠ .unknown :=
    Head.Sound.reading?_of_isSet h hset
  have hrefusal : r.refusal? = none := by
    cases r with
    | unknown => exact absurd rfl hknown
    | root => cases hoperands
    | _ => rfl
  have hformula := Formula.draws_form style hrefusal
  have hlatex := Latex.draws_form style' (by rw [hrefusal]; exact nofun) (h.full hr)
  rw [hoperands] at hlatex
  rw [formula, latex, render_of_ok _ hr, render_of_ok _ hr]
  refine ⟨hformula.isOk fun text htext => ?_, hlatex.isOk fun text htext => absurd htext List.not_mem_nil⟩
  obtain ⟨x, hx, -⟩ := List.mem_map.1 htext
  exact absurd (hoperands ▸ mem_operands_of_mem_written hx) List.not_mem_nil

theorem isSet_of_isLiteral {value : Int} (hv : t.isLiteral value) : t.head.payload.IsSet := by
  unfold isLiteral Head.isLiteral at hv
  split at hv
  next hd => exact Head.isSet_of_literal? hd
  next => cases hv

/-- Formulas and content MathML accept the same trees. -/
theorem isOk_formula_iff (t : Tree) (waiting : List Attribute) :
    (t.formula style).isOk ↔ (t.elementWith waiting).isOk := by
  induction t using reading_induction generalizing waiting with
  | step t ih =>
    cases hr : t.reading? with
    | error fault =>
      rw [formula, render_of_error _ hr, elementWith_of_error _ hr]
      rfl
    | ok r =>
      rw [formula, render_of_ok _ hr, elementWith_of_ok _ hr, MathML.isOk_draft_iff]
      cases hrefusal : r.refusal? with
      | some fault =>
        have hform : (Formula.renderer style).form = Formula.form style := rfl
        rw [hform, Formula.form_of_refusal style hrefusal]
        simp
      | none =>
        have hdraws := Formula.draws_form style hrefusal
        refine hdraws.isOk_iff.trans ?_
        simp only [List.mem_map, forall_exists_index, and_imp, forall_apply_eq_imp_iff₂, true_and]
        exact forall₂_congr fun x hx => ih r hr x (mem_operands_of_mem_written hx) _

/-- Where the errors of a formula and of LaTeX part: only over what is unknown. -/
theorem latex_follows_formula (style : Formula.Style) (style' : Latex.Style) (h : t.All IsSound) :
    ((t.formula style).isOk → (t.latex style').isOk) ∧
    ((t.latex style').isOk → ∀ fault, t.formula style = .error fault → fault = .unknownNode) := by
  induction t using reading_induction with
  | step t ih =>
    cases hr : t.reading? with
    | error fault =>
      rw [formula, latex, render_of_error _ hr, render_of_error _ hr]
      exact ⟨fun hok => hok, fun hok => absurd hok Bool.false_ne_true⟩
    | ok r =>
      have hsound : t.IsSound := by
        cases h with
        | intro top _ => exact top
      have hfull := hsound.full hr
      have hbelow := h.operands hr
      rw [formula, latex, render_of_ok _ hr, render_of_ok _ hr]
      have hformula : (Formula.renderer style).form = Formula.form style := rfl
      have hlatex : (Latex.renderer style').form = Latex.form style' := rfl
      rw [hformula, hlatex]
      cases hrefusal : r.refusal? with
      | some refusal =>
        rw [Formula.form_of_refusal style hrefusal]
        refine ⟨fun hok => absurd hok Bool.false_ne_true, fun hok fault hfault => ?_⟩
        cases hfault
        rcases Reading.eq_of_refusal? hrefusal with rfl | rfl
        · -- a zeroth root is refused by both
          rw [Latex.form_of_zerothRoot style' hrefusal] at hok
          cases hok
        · rfl
      | none =>
        have hwritten := Formula.draws_form style hrefusal
        have hoperands := Latex.draws_form style' (r := r) (by rw [hrefusal]; exact nofun) hfull
        constructor
        · intro hok
          refine hoperands.isOk fun text htext => ?_
          obtain ⟨x, hx, rfl⟩ := List.mem_map.1 htext
          rcases mem_written_or_isLiteral hx with hmem | hten
          · have hxok := hwritten.isOk_iff.1 hok _ (List.mem_map_of_mem hmem)
            exact (ih r hr x hx (hbelow x hx)).1 hxok
          · have hxsound : x.IsSound := by
              cases hbelow x hx with
              | intro top _ => exact top
            have hrendered : (x.formula style).isOk ∧ (x.latex style').isOk :=
              hxsound.isOk_of_isSet (isSet_of_isLiteral hten)
            exact hrendered.2
        · intro hok fault hfault
          obtain ⟨x, hx, hxfault⟩ := List.mem_map.1 (hwritten.fails fault hfault)
          have hmem := mem_operands_of_mem_written hx
          have hxok := hoperands.isOk_iff.1 hok _ (List.mem_map_of_mem hmem)
          exact (ih r hr x hmem (hbelow x hmem)).2 hxok fault hxfault

theorem isOk_mathElement_iff (indent : Nat) : (t.mathElement indent).isOk ↔ t.element.isOk := by
  rw [mathElement, (MathML.writes_writeTree t).isOk_written indent]

theorem isOk_mathDocument_iff (indent : Nat) : (t.mathDocument indent).isOk ↔ t.element.isOk := by
  rw [mathDocument, (MathML.writes_writeDocument t).isOk_written indent, mathWith]
  simp

/-- Formulas, content MathML and LaTeX accept the same trees, save that LaTeX also accepts what is
unknown.  The trees are all those in which the form of each node allows its kind, and every tree of a
forest that can be reached is one of them. -/
theorem renderings_accept_alike (style : Formula.Style) (style' : Latex.Style) (indent : Nat) :
    (∀ f : Forest, f.Reachable → ∀ n, (f.tree n).All IsSound) ∧
    ∀ t : Tree, t.All IsSound →
      ((t.formula style).isOk ↔ (t.mathDocument indent).isOk) ∧
      ((t.formula style).isOk → (t.latex style').isOk) ∧
      ((t.latex style').isOk → ∀ fault, t.formula style = .error fault → fault = .unknownNode) := by
  refine ⟨fun f hf n => hf.all_isSound n, fun t ht => ?_⟩
  obtain ⟨himp, hfault⟩ := latex_follows_formula style style' ht
  exact ⟨(isOk_formula_iff t _).trans (isOk_mathDocument_iff indent).symm, himp, hfault⟩

/-- A logarithm to the base ten, and an unknown node. -/
theorem renderings_accept_logarithm :
    let t : Tree := .node (.ofKind .log) [leaf (.integerLiteral 10), leaf (.identifier "x")]
    let u : Tree := .leaf (.ofKind .unknown)
    (t.All IsSound ∧ t.formula.isOk ∧ u.All IsSound ∧ u.latex.isOk ∧
      u.formula = .error .unknownNode) ∧
    t.mathDocument.isOk ∧ t.latex.isOk ∧
    ∀ fault, u.formula = .error fault → fault = .unknownNode := by
  intro t u
  have hleaf {h : Head} (hs : h.form.allows h.kind = true) : (Tree.leaf h).All IsSound :=
    .node hs nofun
  have ht : t.All IsSound := .node (h := .ofKind .log) rfl fun v hv => by
    rcases List.mem_cons.1 hv with rfl | hv
    · exact hleaf rfl
    · cases List.mem_singleton.1 hv
      exact hleaf rfl
  have hu : u.All IsSound := hleaf rfl
  have hformula : t.formula.isOk := by decide
  have halike := (renderings_accept_alike {} {} 0).2
  obtain ⟨hdocument, hlatex, -⟩ := halike t ht
  have hunknown := (halike u hu).2.2
  exact ⟨⟨ht, hformula, hu, rfl, rfl⟩, hdocument.1 hformula, hlatex hformula, hunknown rfl⟩

end Tree

end MathTree

import MathTree.Proofs.Render.Frames

/-!
# The exponent one

A power with the exponent one is written as its base, and an operator does not bracket a power.  So an
operator writes the power as it writes the base just where it does not bracket the base
(`Tree.raised_text_iff`): not so for a sum in a product, say, which then reads as another sum
(`Tree.raised_sum_loses_brackets`).  Which operands an operator brackets is said by `encloses`, and both
notations are cases of one, `Renderer.Brackets`.
-/

namespace MathTree

/-! ### Notations with brackets -/

/-- Whether an operator brackets an operand in a place.  Only quotients differ between notations. -/
def encloses (above below : Tree → Bool) (h : Head) (place : Nat) (x : Tree) : Bool :=
  match h.kind with
  | .plus => place ≠ 0 && x.isLoose
  | .minus => (h.form = .unary || place ≠ 0) && x.isLoose
  | .times => x.isLoose
  | .divide => if place = 0 then above x else below x
  | .relation _ => x.kind.isRelational
  | _ => false

/-- Whether a kind is that of an operator between operands, or before one, that brackets them. -/
def Kind.joinsOperands : Kind → Bool
  | .plus | .minus | .times | .divide | .relation _ => true
  | _ => false

/-- How a notation writes operators and brackets their operands. -/
structure Renderer.Brackets (R : Renderer Rendition) (brackets : String → String)
    (above below : Tree → Bool) : Prop where
  refuse : R.refuse = .error
  longer : ∀ s, s.length < (brackets s).length
  above_power : ∀ t : Tree, t.kind = .power → above t = false
  below_power : ∀ t : Tree, t.kind = .power → below t = false
  sum : ∀ xs, R.form (.sum xs) = Term.chain brackets "+" xs
  difference : ∀ x y, R.form (.difference x y) = Term.chain brackets "-" [x, y]
  negation : ∀ x, R.form (.negation x) = ("-" ++ ·) <$> Term.operand brackets x
  product : ∃ join : List String → String,
    (∀ {a b : String}, a.length < b.length → ∀ as bs,
      (join (as ++ a :: bs)).length < (join (as ++ b :: bs)).length) ∧
    ∀ xs, R.form (.product xs) = join <$> xs.mapM (Term.operand brackets)
  quotient : ∃ join : String → String → String,
    (∀ a b s : String, a.length < b.length → (join a s).length < (join b s).length) ∧
    (∀ a b s : String, a.length < b.length → (join s a).length < (join s b).length) ∧
    ∀ x y : Term, R.form (.quotient x y) = do
      let a ← Term.enclosedIf brackets (above x.tree) <$> x.result
      let b ← Term.enclosedIf brackets (below y.tree) <$> y.result
      return join a b
  relation : ∀ r, ∃ sign, ∀ x y, R.form (.relation r x y) = Term.relation brackets sign x y

namespace Tree

variable {R : Renderer Rendition} {t : Tree}

/-- A tree to the power one. -/
def raised (b : Tree) : Tree := .node (.ofKind .power) [b, leaf (.integerLiteral 1)]

theorem kind_raised (b : Tree) : b.raised.kind = .power := rfl

theorem reading?_raised (b : Tree) :
    b.raised.reading? = .ok (.power b (leaf (.integerLiteral 1))) := rfl

theorem formula_raised (style : Formula.Style) (b : Tree) :
    b.raised.formula style = b.formula style := by
  have hone : (leaf (.integerLiteral 1)).formula style = .ok "1" := rfl
  have hpower (text : String) : Formula.powerText text "1" = text := rfl
  rw [formula, render_of_ok _ b.reading?_raised]
  change (do
    let base ← b.formula style
    let exponent ← (leaf (.integerLiteral 1)).formula style
    return Formula.powerText base exponent) = _
  rw [hone]
  cases b.formula style with
  | error => rfl
  | ok text => exact congrArg Except.ok (hpower text)

theorem latex_raised (style : Latex.Style) (b : Tree) : b.raised.latex style = b.latex style := by
  have hone : (leaf (.integerLiteral 1)).latex style = .ok "1" := rfl
  rw [latex, render_of_ok _ b.reading?_raised]
  change (do
    let value ← b.latex style
    let exponent ← (leaf (.integerLiteral 1)).latex style
    if exponent = "1" then return value
    return Term.enclosedIf Latex.brackets (2 ≤ b.childCount) value ++ "^" ++ Latex.group exponent) = _
  rw [hone]
  cases b.latex style <;> rfl

/-- What is made of a node that needs two operands. -/
theorem render_two (hrefuse : R.refuse = .error) (make : Tree × Tree → Reading Tree)
    (form : Term → Term → Rendition)
    (hform : ∀ x y, R.form ((make (x, y)).map (operand R)) = form (x.operand R) (y.operand R))
    (hread : t.reading? = make <$> t.head.two t.shown) :
    t.render R = (do
      let (a, b) ← t.head.two (t.shown.map (operand R))
      form a b) := by
  rw [render_eq, hread, Head.two_map]
  cases t.head.two t.shown with
  | error fault => exact congrFun hrefuse fault
  | ok p => exact hform p.1 p.2

/-- A tree in which one child is exchanged shows the same others before it and behind it. -/
theorem exists_shown_set {h : Head} {ts : List Tree} {i : Nat} (hi : i < h.shown ts.length) :
    ∃ pre post : List Tree, pre.length = i ∧
      ∀ x, shown (.node h (ts.set i x)) = pre ++ x :: post := by
  have hcount (x : Tree) : childCount (.node h (ts.set i x)) = h.shown ts.length := by
    rw [childCount, Rose.children, List.length_set]
    rfl
  have hlen : i < (ts.take (h.shown ts.length)).length := by
    rw [List.length_take]
    have := h.shown_le ts.length
    omega
  refine ⟨(ts.take (h.shown ts.length)).take i, (ts.take (h.shown ts.length)).drop (i + 1), ?_,
    fun x => ?_⟩
  · rw [List.length_take]
    omega
  · rw [shown, hcount, Rose.children, List.take_set, List.set_eq_take_append_cons_drop,
      if_pos hlen]

end Tree

/-! ### The text of an operator -/

namespace Renderer.Brackets

variable {R : Renderer Rendition} {brackets : String → String} {above below : Tree → Bool}
  (hR : R.Brackets brackets above below)
include hR

/-- No power is bracketed. -/
theorem encloses_raised (h : Head) (place : Nat) (b : Tree) :
    encloses above below h place b.raised = false := by
  have hloose : b.raised.isLoose = false := rfl
  have hrelational : b.raised.kind.isRelational = false := rfl
  have habove := hR.above_power b.raised b.kind_raised
  have hbelow := hR.below_power b.raised b.kind_raised
  unfold encloses
  split <;> simp [hloose, hrelational, habove, hbelow]

section

variable {h : Head} {ts : List Tree} {i : Nat} (hi : i < h.shown ts.length)
include hi

/-- What an operator with two operands is written as, is a context around either. -/
theorem exists_frames_two (make : Tree × Tree → Reading Tree) (form : Term → Term → Rendition)
    (left right : Term → Rendition)
    (hread : ∀ t : Tree, t.head = h → t.reading? = make <$> h.two t.shown)
    (hform : ∀ x y, R.form ((make (x, y)).map (Tree.operand R)) = form (x.operand R) (y.operand R))
    (hleft : ∀ y, ∃ context, Frames context ∧ ∀ x, form x y = context (left x))
    (hright : ∀ y, ∃ context, Frames context ∧ ∀ x, form y x = context (right x)) :
    ∃ context, Frames context ∧ ∀ x : Tree, Tree.render R (.node h (ts.set i x))
      = context (if i = 0 then left (x.operand R) else right (x.operand R)) := by
  obtain ⟨pre, post, rfl, hshown⟩ := Tree.exists_shown_set hi
  obtain ⟨context, hc, heq⟩ := Term.frames_two (pre.map (Tree.operand R))
    (post.map (Tree.operand R)) h form left right hleft hright
  refine ⟨context, hc, fun x => ?_⟩
  have hmap : (Tree.shown (.node h (ts.set pre.length x))).map (Tree.operand R)
      = pre.map (Tree.operand R) ++ x.operand R :: post.map (Tree.operand R) := by
    rw [hshown, List.map_append, List.map_cons]
  rw [Tree.render_two hR.refuse make form hform (hread _ rfl), hmap]
  exact (heq _).trans (by simp only [List.map_eq_nil_iff, List.length_eq_zero_iff])

/-- The text of an operator is a context around what it writes for one of its operands. -/
theorem exists_frames (hk : h.kind.joinsOperands) (hunary : h.form = .unary → i = 0) :
    ∃ context, Frames context ∧ ∀ x : Tree, Tree.render R (.node h (ts.set i x))
      = context (Term.enclosedIf brackets (encloses above below h i x) <$> x.render R) := by
  obtain ⟨pre, post, hpre, hshown⟩ := Tree.exists_shown_set hi
  have hplace : i = 0 ↔ pre.map (Tree.operand R) = [] := by
    rw [List.map_eq_nil_iff, ← hpre, List.length_eq_zero_iff]
  have hmap (x : Tree) : (Tree.shown (.node h (ts.set i x))).map (Tree.operand R)
      = pre.map (Tree.operand R) ++ x.operand R :: post.map (Tree.operand R) := by
    rw [hshown, List.map_append, List.map_cons]
  cases hkind : h.kind with
  | plus =>
    obtain ⟨context, hc, heq⟩ := Term.frames_chain brackets "+" (pre.map (Tree.operand R))
      (post.map (Tree.operand R))
    refine ⟨context, hc, fun x => ?_⟩
    have hsum := Tree.render_sum (R := R) (t := .node h (ts.set i x)) hkind
    rw [hsum, hmap, hR.sum, heq]
    simp only [encloses, hkind, ← hplace, ne_eq]
    rfl
  | times =>
    obtain ⟨join, hjoin, hform⟩ := hR.product
    obtain ⟨context, hc, heq⟩ := Term.frames_mapM (pre.map (Tree.operand R))
      (post.map (Tree.operand R)) (Term.operand brackets) hjoin
    refine ⟨context, hc, fun x => ?_⟩
    have hproduct := Tree.render_product (R := R) (t := .node h (ts.set i x)) hkind
    rw [hproduct, hmap, hform, heq]
    simp only [encloses, hkind]
    rfl
  | minus =>
    by_cases hform : h.form = .unary
    · obtain rfl : pre = [] := by
        rw [← List.length_eq_zero_iff, hpre]
        exact hunary hform
      refine ⟨_, frames_between (.ok ()) (.ok ()) (fun _ a _ => "-" ++ a) fun _ _ a b hlt => ?_,
        fun x => ?_⟩
      · simpa only [String.length_append, Nat.add_lt_add_iff_left] using hlt
      · have hread : Tree.reading? (.node h (ts.set i x)) = .ok (.negation x) := by
          rw [Tree.reading?, Tree.head, Rose.label, Head.reading?, hkind, Tree.itself_shown, hshown]
          simp only [if_pos hform]
          rfl
        have henclosed : encloses above below h i x = x.isLoose := by simp [encloses, hkind, hform]
        rw [Tree.render_of_ok R hread, Reading.map, hR.negation, henclosed, Term.operand,
          Tree.operand]
        cases x.render R <;> rfl
    · obtain ⟨context, hc, heq⟩ := hR.exists_frames_two hi (fun p => .difference p.1 p.2)
        (fun x y => Term.chain brackets "-" [x, y])
        (fun x => Term.enclosedIf brackets false <$> x.result) (Term.operand brackets)
        (fun t ht => by
          rw [Tree.reading?, ht, Head.reading?, hkind]
          simp only [if_neg hform, Tree.itself_shown])
        (fun x y => hR.difference ..) (fun y => Term.frames_chain brackets "-" [] [y])
        (fun y => Term.frames_chain brackets "-" [y] [])
      refine ⟨context, hc, fun x => ?_⟩
      rw [heq, encloses, hkind]
      by_cases hi : i = 0 <;> simp [hi, hform] <;> rfl
  | divide =>
    obtain ⟨join, hleft, hright, hform⟩ := hR.quotient
    obtain ⟨context, hc, heq⟩ := hR.exists_frames_two hi (fun p => .quotient p.1 p.2)
      (fun x y => R.form (.quotient x y))
      (fun x => Term.enclosedIf brackets (above x.tree) <$> x.result)
      (fun x => Term.enclosedIf brackets (below x.tree) <$> x.result)
      (fun t ht => by rw [Tree.reading?, ht, Head.reading?, hkind, Tree.itself_shown])
      (fun x y => rfl)
      (fun y => by
        simp only [hform]
        exact Term.frames_left _ _ join hleft)
      (fun y => by
        simp only [hform]
        exact Term.frames_right _ _ join hright)
    refine ⟨context, hc, fun x => ?_⟩
    rw [heq, encloses, hkind]
    split_ifs <;> rfl
  | relation r =>
    obtain ⟨sign, hform⟩ := hR.relation r
    obtain ⟨context, hc, heq⟩ := hR.exists_frames_two hi (fun p => .relation r p.1 p.2)
      (fun x y => R.form (.relation r x y)) (Term.side brackets) (Term.side brackets)
      (fun t ht => by rw [Tree.reading?, ht, Head.reading?, hkind, Tree.itself_shown])
      (fun x y => rfl)
      (fun y => by
        simp only [hform, Term.relation]
        refine Term.frames_left _ _ (fun a b => a ++ sign ++ b) fun a b s hlt => ?_
        simp only [String.length_append]
        omega)
      (fun y => by
        simp only [hform, Term.relation]
        refine Term.frames_right _ _ (fun a b => a ++ sign ++ b) fun a b s hlt => ?_
        simp only [String.length_append]
        omega)
    refine ⟨context, hc, fun x => ?_⟩
    rw [heq, encloses, hkind, ite_self]
    rfl
  | _ =>
    rw [hkind] at hk
    cases hk

/-- An operator writes a power with the exponent one as it writes the base, if the power is written as
the base, just where it does not bracket the base. -/
theorem render_raised_iff (hk : h.kind.joinsOperands) (hunary : h.form = .unary → i = 0) {b : Tree}
    (hb : ts[i]? = some b) (hraised : b.raised.render R = b.render R)
    (hok : (Tree.render R (.node h ts)).isOk) :
    (Tree.render R (.node h (ts.set i b.raised))).isOk ∧
      (Tree.render R (.node h (ts.set i b.raised)) = Tree.render R (.node h ts) ↔
        encloses above below h i b = false) := by
  obtain ⟨context, hc, heq⟩ := hR.exists_frames hi hk hunary
  have hparent : Tree.render R (.node h ts)
      = context (Term.enclosedIf brackets (encloses above below h i b) <$> b.render R) := by
    obtain ⟨hlt, rfl⟩ := List.getElem?_eq_some_iff.1 hb
    rw [← heq, List.set_getElem_self]
  have hpower : Tree.render R (.node h (ts.set i b.raised)) = context (b.render R) := by
    rw [heq, hR.encloses_raised, hraised]
    cases b.render R <;> rfl
  rw [hparent] at hok ⊢
  rw [hpower]
  exact ⟨hc.isOk hok, hc.eq_iff hR.longer hok⟩

end

end Renderer.Brackets

namespace Formula

/-- A denominator that is bracketed. -/
def isCompound (x : Tree) : Bool :=
  match x.kind with
  | .plus | .minus | .times => true
  | _ => false

theorem brackets_renderer (style : Style) :
    (renderer style).Brackets brackets Tree.isLoose isCompound where
  refuse := rfl
  longer s := by
    simp only [brackets, String.length_append]
    have : "(".length = 1 := rfl
    omega
  above_power t ht := by rw [Tree.isLoose, ht]
  below_power t ht := by rw [isCompound, ht]
  sum _ := rfl
  difference _ _ := rfl
  negation _ := rfl
  product := ⟨fun texts => "*".intercalate (texts.filter (· ≠ "")),
    fun h as bs => length_product_lt h "*" as bs, fun _ => (map_eq_pure_bind _ _).symm⟩
  quotient := ⟨fun a s => a ++ "/" ++ s, fun a b s h => by
      simp only [String.length_append]
      omega, fun a b s h => by
      simp only [String.length_append]
      omega, fun x y => rfl⟩
  relation r := ⟨relationSign r, fun x y => rfl⟩

end Formula

namespace Latex

theorem brackets_renderer (style : Style) :
    (renderer style).Brackets brackets (fun _ => false) (fun _ => false) where
  refuse := rfl
  longer s := by
    simp only [brackets, String.length_append]
    have : "\\left(".length = 6 := rfl
    omega
  above_power _ _ := rfl
  below_power _ _ := rfl
  sum _ := rfl
  difference _ _ := rfl
  negation _ := rfl
  product := ⟨_, fun h as bs => length_intercalate_lt h "\\cdot " as bs, fun xs => rfl⟩
  quotient := ⟨fun a s => "\\frac" ++ group a ++ group s, fun a b s h => by
      simp only [group, String.length_append]
      omega, fun a b s h => by
      simp only [group, String.length_append]
      omega, fun x y => by
      change (do
        let a ← x.result
        let b ← y.result
        return "\\frac" ++ group a ++ group b) = _
      cases x.result <;> cases y.result <;> rfl⟩
  relation r := ⟨relationSign r, fun x y => rfl⟩

end Latex

namespace Tree

/-- Formulas and LaTeX write an operator over a power with the exponent one as they write it over the
base just where they do not bracket the base.  They never refuse it if they do not refuse the base. -/
theorem raised_text_iff (style : Formula.Style) (style' : Latex.Style) {h : Head} {ts : List Tree}
    {i : Nat} {b : Tree} (hk : h.kind.joinsOperands) (hi : i < h.shown ts.length)
    (hunary : h.form = .unary → i = 0) (hb : ts[i]? = some b) :
    let plain : Tree := .node h ts
    let raised : Tree := .node h (ts.set i b.raised)
    ((plain.formula style).isOk → (raised.formula style).isOk ∧
      (raised.formula style = plain.formula style ↔
        encloses isLoose Formula.isCompound h i b = false)) ∧
    ((plain.latex style').isOk → (raised.latex style').isOk ∧
      (raised.latex style' = plain.latex style' ↔
        encloses (fun _ => false) (fun _ => false) h i b = false)) := by
  have hformula := Formula.brackets_renderer style
  have hlatex := Latex.brackets_renderer style'
  exact ⟨hformula.render_raised_iff hi hk hunary hb (formula_raised style b),
    hlatex.render_raised_iff hi hk hunary hb (latex_raised style' b)⟩

/-- A formula brackets a sum above a fraction stroke, and LaTeX does not. -/
theorem raised_text_iff_sum :
    let sum : Tree := .node (.ofKind .plus) [leaf (.identifier "a"), leaf (.identifier "b")]
    let h := Head.ofKind .divide
    let ts := [sum, leaf (.identifier "c")]
    let plain : Tree := .node h ts
    let raised : Tree := .node h (ts.set 0 sum.raised)
    (h.kind.joinsOperands ∧ 0 < h.shown ts.length ∧ (h.form = .unary → 0 = 0) ∧
        ts[0]? = some sum ∧ plain.formula.isOk ∧ plain.latex.isOk) ∧
      (raised.formula.isOk ∧ raised.formula ≠ plain.formula) ∧
      raised.latex.isOk ∧ raised.latex = plain.latex := by
  intro sum h ts plain raised
  have hformula : plain.formula.isOk := by decide +kernel
  have hlatex : plain.latex.isOk := by decide +kernel
  have hi : 0 < h.shown ts.length := by decide
  have hsum : ts[0]? = some sum := rfl
  obtain ⟨hinline, hstacked⟩ := raised_text_iff {} {} (h := h) rfl hi (fun _ => rfl) hsum
  obtain ⟨hok, hdiffers⟩ := hinline hformula
  obtain ⟨hok', hsame⟩ := hstacked hlatex
  exact ⟨⟨rfl, hi, fun _ => rfl, hsum, hformula, hlatex⟩,
    ⟨hok, fun heq => Bool.noConfusion (hdiffers.1 heq)⟩, hok', hsame.2 rfl⟩

/-- The product of a sum and a name is written in brackets, and the product of the sum to the power one
is not: what is then read is another tree. -/
theorem raised_sum_loses_brackets :
    let sum : Tree := .node (.ofKind .plus) [leaf (.identifier "a"), leaf (.identifier "b")]
    let plain : Tree := .node (.ofKind .times) [sum, leaf (.identifier "c")]
    let raised : Tree := .node (.ofKind .times) [sum.raised, leaf (.identifier "c")]
    (sum.formula.isOk ∧ sum.latex.isOk) ∧
      (plain.formula = .ok "(a+b)*c" ∧ raised.formula = .ok "a+b*c") ∧
      plain.latex = .ok "\\left(a+b\\right)\\cdot c" ∧ raised.latex = .ok "a+b\\cdot c" := by
  decide +kernel

end Tree

end MathTree

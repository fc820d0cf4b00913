import MathTree.Proofs.Number.Canonical
import MathTree.Proofs.Render.Operands

/-!
# Canonical trees

A tree is canonical if all its real numbers are, and trees are the same just if they have the same
canonical tree (`Tree.same_iff`).  What a tree is read as can be told from the canonical tree, up to
canonical numbers (`Tree.reading?_canonical`); so a renderer that does not tell a number from its
canonical one renders both trees alike (`Tree.render_canonical`).
-/

namespace MathTree

open MathTree.Number

/-! ### Payloads and heads -/

namespace Payload

variable {p p' : Payload}

/-- The same payload with canonical numbers. -/
def canonical : Payload → Payload
  | .real value units => .real value.canonical units
  | .exponential mantissa exponent units => .exponential mantissa.canonical exponent units
  | p => p

@[simp]
theorem form_canonical (p : Payload) : p.canonical.form = p.form := by cases p <;> rfl

@[simp]
theorem symbol?_canonical (p : Payload) : p.canonical.symbol? = p.symbol? := by cases p <;> rfl

@[simp]
theorem units?_canonical (p : Payload) : p.canonical.units? = p.units? := by cases p <;> rfl

@[simp]
theorem integer?_canonical (p : Payload) : p.canonical.integer? = p.integer? := by cases p <;> rfl

@[simp]
theorem numerator?_canonical (p : Payload) : p.canonical.numerator? = p.numerator? := by
  cases p <;> rfl

@[simp]
theorem denominator?_canonical (p : Payload) : p.canonical.denominator? = p.denominator? := by
  cases p <;> rfl

@[simp]
theorem exponent?_canonical (p : Payload) : p.canonical.exponent? = p.exponent? := by
  cases p <;> rfl

@[simp]
theorem real?_canonical (p : Payload) : p.canonical.real? = p.real?.map Binary64.canonical := by
  cases p <;> rfl

@[simp]
theorem mantissa?_canonical (p : Payload) :
    p.canonical.mantissa? = p.mantissa?.map Binary64.canonical := by
  cases p <;> rfl

theorem same_iff : p.same p' ↔ p.canonical = p'.canonical := by
  cases p <;> cases p' <;> simp [same, canonical, Binary64.same_iff, form, symbol?, and_assoc]

end Payload

namespace Head

variable {h h' : Head}

/-- The same head with canonical numbers. -/
def canonical (h : Head) : Head := { h with payload := h.payload.canonical }

theorem same_iff : h.same h' ↔ h.canonical = h'.canonical := by
  obtain ⟨kind, strict, id, style, styleClass, payload⟩ := h
  obtain ⟨kind', strict', id', style', styleClass', payload'⟩ := h'
  simp [same, canonical, Payload.same_iff, and_assoc]

@[simp]
theorem kind_canonical (h : Head) : h.canonical.kind = h.kind := rfl

@[simp]
theorem payload_canonical (h : Head) : h.canonical.payload = h.payload.canonical := rfl

@[simp]
theorem form_canonical (h : Head) : h.canonical.form = h.form := Payload.form_canonical _

@[simp]
theorem capacity_canonical (h : Head) : h.canonical.capacity = h.capacity := by
  simp [capacity]

@[simp]
theorem shown_canonical (h : Head) (n : Nat) : h.canonical.shown n = h.shown n := by
  rw [shown, shown, capacity_canonical]
  rfl

@[simp]
theorem units?_canonical (h : Head) : h.canonical.units? = h.units? := by
  simp [units?]

/-! ### Values of canonical heads -/

@[simp]
theorem demand_canonical {α : Type} (h : Head) (field : Field) (slot : Option (Option α))
    (default : α) : h.canonical.demand field slot default = h.demand field slot default := rfl

theorem demand_map {α β : Type} (f : α → β) (h : Head) (field : Field) (slot : Option (Option α))
    (default : α) :
    h.demand field (slot.map (Option.map f)) (f default) = (h.demand field slot default).map f := by
  rcases slot with _ | _ | value
  · rfl
  · simp only [demand, Option.map_some, Option.map_none]
    split <;> rfl
  · rfl

theorem setReal_canonical (x : Binary64) :
    setReal x.canonical = (setReal x).map Binary64.canonical := by
  rw [setReal, setReal, Binary64.isNan_canonical]
  split <;> rfl

theorem demand_setReal_canonical (h : Head) (field : Field) (slot : Option Binary64) :
    h.demand field ((slot.map Binary64.canonical).map setReal) .nan
      = (h.demand field (slot.map setReal) .nan).map Binary64.canonical := by
  rw [← demand_map]
  cases slot with
  | none => rfl
  | some x => exact congrArg (fun value => h.demand field (some value) .nan) (setReal_canonical x)

theorem real_canonical (h : Head) : h.canonical.real = h.real.map Binary64.canonical := by
  rw [real, real, ← demand_setReal_canonical, demand_canonical, payload_canonical,
    Payload.real?_canonical]

theorem mantissa_canonical (h : Head) :
    h.canonical.mantissa = h.mantissa.map Binary64.canonical := by
  rw [mantissa, mantissa, ← demand_setReal_canonical, demand_canonical, payload_canonical,
    Payload.mantissa?_canonical]

theorem storedReal_canonical (h : Head) : h.canonical.storedReal = h.storedReal.canonical := by
  rw [storedReal, storedReal, payload_canonical, Payload.real?_canonical]
  cases h.payload.real? <;> rfl

theorem isLiteral_eq (h : Head) (value : Int) :
    h.isLiteral value = h.literal?.any (·.same (.ofInt value)) := by
  rw [isLiteral]
  cases h.literal? <;> rfl

@[simp]
theorem isLiteral_canonical (h : Head) (value : Int) :
    h.canonical.isLiteral value = h.isLiteral value := by
  rw [isLiteral_eq, isLiteral_eq]
  obtain ⟨kind, strict, id, style, styleClass, payload⟩ := h
  cases payload with
  | real x units =>
    refine Binary64.apply_canonical (fun x => (Decimal.ofBinary64? x).any (·.same (.ofInt value)))
      (fun x h => ?_) (fun x negative q h => ?_) x
    · simp only [Binary64.decimal_of_nan h, Binary64.decimal_of_nan Binary64.value_nan]
    · simp [Binary64.decimal_of_zero h, Binary64.decimal_of_zero Binary64.value_zero, Decimal.same,
        Decimal.scaledTo]
  | exponential mantissa exponent units =>
    cases exponent with
    | none => rfl
    | some e =>
      have hmul {negative : Bool} {power : Decimal} :
          Decimal.mul? ⟨negative, 0, 0⟩ power = some ⟨false, 0, 0⟩ := if_pos (.inl rfl)
      let product (x : Binary64) : Option Decimal := do
        let m ← Decimal.ofBinary64? x
        let power ← Decimal.ofBinary64? (Binary64.powerOfTen e.toInt)
        m.mul? power
      refine Binary64.apply_canonical (fun x => (product x).any (·.same (.ofInt value)))
        (fun x h => ?_) (fun x negative q h => ?_) mantissa
      · simp only [product, Binary64.decimal_of_nan h, Binary64.decimal_of_nan Binary64.value_nan]
      · simp only [product, Binary64.decimal_of_zero h, Binary64.decimal_of_zero Binary64.value_zero,
          Option.bind_eq_bind, Option.bind_some, hmul]
  | _ => rfl

end Head

/-! ### Trees -/

namespace Tree

variable {a b t : Tree}

/-- The same tree with canonical numbers. -/
def canonical : Tree → Tree := Rose.map Head.canonical

theorem canonical_node (h : Head) (ts : List Tree) :
    canonical (.node h ts) = .node h.canonical (ts.map canonical) := Rose.map_node ..

theorem sameAll_iff {ts us : List Tree} (h : ∀ t ∈ ts, ∀ u, t.same u ↔ t.canonical = u.canonical) :
    sameAll (ts.map same) us ↔ ts.map canonical = us.map canonical := by
  induction ts generalizing us with
  | nil => cases us <;> simp [sameAll]
  | cons t ts ih =>
    cases us with
    | nil => simp [sameAll]
    | cons u us =>
      have ht := h t List.mem_cons_self u
      have hts : sameAll (ts.map same) us ↔ ts.map canonical = us.map canonical :=
        ih fun v hv => h v (List.mem_cons_of_mem t hv)
      simp [sameAll, ht, hts]

/-- Trees are the same just if they have the same canonical tree. -/
theorem same_iff : a.same b ↔ a.canonical = b.canonical := by
  induction a using Rose.induction generalizing b with
  | node h ts ih =>
    obtain ⟨h', us⟩ := b
    rw [same_node, Bool.and_eq_true, sameAll_iff fun t ht u => ih t ht, canonical_node, canonical_node,
      Rose.node.injEq]
    exact and_congr_left' Head.same_iff

@[simp]
theorem head_canonical (t : Tree) : t.canonical.head = t.head.canonical := by
  cases t
  rw [canonical_node]
  rfl

@[simp]
theorem kind_canonical (t : Tree) : t.canonical.kind = t.kind := by
  rw [kind, head_canonical, Head.kind_canonical, kind]

theorem children_canonical (t : Tree) : t.canonical.children = t.children.map canonical := by
  cases t
  rw [canonical_node]
  rfl

@[simp]
theorem childCount_canonical (t : Tree) : t.canonical.childCount = t.childCount := by
  simp [childCount, children_canonical]

theorem shown_canonical (t : Tree) : t.canonical.shown = t.shown.map canonical := by
  rw [shown, shown, childCount_canonical, children_canonical, List.map_take]

theorem content_canonical (t : Tree) : t.canonical.content = t.content.canonical := by
  rw [content, content, kind_canonical, shown_canonical]
  split
  · cases t.shown <;> rfl
  · rfl

@[simp]
theorem isLiteral_canonical (t : Tree) (value : Int) :
    t.canonical.isLiteral value = t.isLiteral value := by
  rw [isLiteral, head_canonical, Head.isLiteral_canonical, isLiteral]

theorem isSquareRoot_canonical (t : Tree) : t.canonical.isSquareRoot = t.isSquareRoot := by
  have hlead : t.canonical.shown.head?.any (·.content.isLiteral 2)
      = t.shown.head?.any (·.content.isLiteral 2) := by
    rw [shown_canonical]
    cases t.shown with
    | nil => rfl
    | cons u us =>
      change u.canonical.content.isLiteral 2 = u.content.isLiteral 2
      rw [content_canonical, isLiteral_canonical]
  rw [isSquareRoot, isSquareRoot, hlead, kind_canonical, childCount_canonical]

/-- What is summed up over a tree is the same for the canonical tree, if it is at each node. -/
theorem foldShown_canonical {β : Type} {step : Head → List β → β}
    (hstep : ∀ h results, step h.canonical results = step h results) (t : Tree) :
    foldShown step t.canonical = foldShown step t := by
  induction t using Rose.induction with
  | node h ts ih =>
    have hts : (ts.map canonical).map (foldShown step) = ts.map (foldShown step) := by
      rw [List.map_map]
      exact List.map_congr_left ih
    rw [canonical_node, foldShown_node, foldShown_node, hstep, List.length_map,
      Head.shown_canonical, List.map_take, hts, ← List.map_take]

theorem countKind_canonical (kind : Kind) (t : Tree) :
    t.canonical.countKind kind = t.countKind kind :=
  foldShown_canonical (fun _ _ => rfl) t

theorem usesUnits_canonical (t : Tree) : t.canonical.usesUnits = t.usesUnits :=
  foldShown_canonical (fun h _ => by rw [Head.units?_canonical]) t

end Tree

/-! ### Readings -/

/-- The same reading with canonical numbers. -/
def Reading.canonical {α : Type} : Reading α → Reading α
  | .real value units => .real value.canonical units
  | .exponential mantissa exponent units => .exponential mantissa.canonical exponent units
  | r => r

theorem Reading.canonical_map {α β : Type} (f : α → β) (r : Reading α) :
    (r.map f).canonical = r.canonical.map f := by
  cases r <;> rfl

theorem Reading.operands_canonical {α : Type} (r : Reading α) : r.canonical.operands = r.operands := by
  cases r <;> rfl

namespace Head

variable {α : Type}

@[simp]
theorem one_canonical (h : Head) (xs : List α) : h.canonical.one xs = h.one xs := rfl

@[simp]
theorem two_canonical (h : Head) (xs : List α) : h.canonical.two xs = h.two xs := rfl

@[simp]
theorem full_canonical (h : Head) (xs : List α) : h.canonical.full xs = h.full xs := by
  rw [full, full, capacity_canonical, kind_canonical]

/-- A canonical node reads as the node does, with canonical numbers. -/
theorem reading?_canonical (h : Head) (isTwo : α → Bool) (slots : List (Slot α)) :
    h.canonical.reading? isTwo slots = (h.reading? isTwo slots).map Reading.canonical := by
  cases hk : h.kind with
  | plus | times | connective | lambda | piecewise | constant | unknown =>
    simp only [reading?, kind_canonical, hk]
    rfl
  | divide | power | relation | log =>
    simp only [reading?, kind_canonical, hk, two_canonical]
    cases h.two _ <;> rfl
  | root =>
    simp only [reading?, kind_canonical, hk, two_canonical]
    rcases h.two slots with _ | ⟨x, y⟩
    · rfl
    · simp only [Functor.map, Except.map, rootReading]
      split <;> rfl
  | minus =>
    simp only [reading?, kind_canonical, hk, form_canonical, two_canonical, one_canonical]
    split
    · cases h.one _ <;> rfl
    · cases h.two _ <;> rfl
  | delay =>
    simp only [reading?, kind_canonical, hk, two_canonical, name, payload_canonical,
      Payload.symbol?_canonical, demand_canonical]
    cases h.two _
    · rfl
    · cases h.demand .name _ _ <;> rfl
  | not | elementary =>
    simp only [reading?, kind_canonical, hk, one_canonical]
    cases h.one _ <;> rfl
  | name | time | avogadro | call =>
    simp only [reading?, kind_canonical, hk, name, payload_canonical, Payload.symbol?_canonical,
      demand_canonical]
    cases h.demand .name _ _ <;> rfl
  | integer =>
    simp only [reading?, kind_canonical, hk, integer, payload_canonical, Payload.integer?_canonical,
      demand_canonical, units?_canonical]
    cases h.demand .integer _ _ <;> rfl
  | real =>
    simp only [reading?, kind_canonical, hk, storedReal_canonical, Binary64.value_canonical,
      units?_canonical]
    cases h.storedReal.value with
    | nan | infinite => rfl
    | finite negative m q => by_cases hm : m = 0 <;> simp [Binary64.Value.canonical, hm] <;> rfl
  | rational =>
    simp only [reading?, kind_canonical, hk, numerator, denominator, payload_canonical,
      Payload.numerator?_canonical, Payload.denominator?_canonical, demand_canonical,
      units?_canonical]
    cases h.demand .numerator _ _
    · rfl
    · cases h.demand .denominator _ _ <;> rfl
  | exponential =>
    simp only [reading?, kind_canonical, hk, mantissa_canonical, exponent, payload_canonical,
      Payload.exponent?_canonical, demand_canonical, units?_canonical]
    cases h.mantissa
    · rfl
    · cases h.demand .exponent _ _ <;> rfl
  | qualifier =>
    simp only [reading?, kind_canonical, hk, full_canonical]
    cases h.full _ <;> rfl

end Head

namespace Tree

variable {β : Type}

theorem slot_canonical (t : Tree) : t.canonical.slot = t.slot.map canonical := by
  rw [slot, content_canonical]
  rfl

/-- A canonical tree reads as the tree does, with canonical numbers and operands. -/
theorem reading?_canonical (t : Tree) :
    t.canonical.reading? = t.reading?.map fun r => r.canonical.map canonical := by
  have hslots : t.canonical.shown.map slot = (t.shown.map slot).map (Slot.map canonical) := by
    rw [shown_canonical, List.map_map, List.map_map]
    exact List.map_congr_left fun u _ => slot_canonical u
  rw [reading?, hslots, Head.reading?_map _ canonical fun u => isLiteral_canonical u 2,
    head_canonical, Head.reading?_canonical, reading?]
  cases t.head.reading? _ _ <;> rfl

end Tree

/-- The operand as it is found in a canonical tree. -/
def Operand.canonical {β : Type} (x : Operand β) : Operand β := { x with tree := x.tree.canonical }

/-- Whether a renderer makes the same of a node with canonical numbers and operands. -/
def Renderer.IgnoresCanonical {β : Type} (R : Renderer β) : Prop :=
  ∀ r : Reading (Operand β), R.form (r.canonical.map Operand.canonical) = R.form r

/-- Such a renderer makes the same of the canonical tree. -/
theorem Tree.render_canonical {β : Type} {R : Renderer β} (hR : R.IgnoresCanonical) (t : Tree) :
    t.canonical.render R = t.render R := by
  induction t using Tree.reading_induction with
  | step t ih =>
    have hread := t.reading?_canonical
    cases hr : t.reading? with
    | error fault =>
      rw [hr] at hread
      rw [render_of_error R hread, render_of_error R hr]
    | ok r =>
      rw [hr] at hread
      have hoperands : (r.canonical.map canonical).map (operand R)
          = (r.map (operand R)).canonical.map Operand.canonical := by
        rw [Reading.canonical_map, Reading.map_map, Reading.map_map]
        refine Reading.map_congr fun x hx => ?_
        rw [Reading.operands_canonical] at hx
        exact congrArg (Operand.mk x.canonical) (ih r hr x hx)
      rw [render_of_ok R hread, render_of_ok R hr, hoperands, hR]

end MathTree

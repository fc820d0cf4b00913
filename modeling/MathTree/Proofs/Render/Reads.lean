import MathTree.Proofs.Render.Operands

/-!
# All that can come of reading a node

A node that can be read hands on its children, of which a root and a logarithm open the first.  One
that cannot has not as many children as it needs, or lacks a value that it must have while it is
strict.  Nothing else can come of a node whose form allows its kind (`Head.Sound.reads`), and
`Head.Reads` has a rule for each of these ways.
-/

namespace MathTree

namespace Head

variable {α β : Type} {h : Head} {isTwo : α → Bool} {slots : List (Slot α)}

/-- How many operands a node needs, if its form asks for a number of them. -/
def operandCount? (h : Head) : Option Nat :=
  match h.form with
  | .binary => some 2
  | .unary => some 1
  | .qualifier => some (if h.kind = .qualifier .piece then 2 else 1)
  | _ => none

/-- Whether a node can carry a field and has nothing in it.  A real that is not a number counts as not
set. -/
def Lacks (h : Head) (field : Field) : Prop :=
  match h.datum? field with
  | some .absent => True
  | some (.real value) => value.isNan
  | _ => False

instance (h : Head) (field : Field) : Decidable (h.Lacks field) := by
  unfold Lacks
  split <;> infer_instance

/-- Whether a node opens its first child: a root its degree and a logarithm its base. -/
def OpensFirst (h : Head) : Prop := h.kind = .root ∨ h.kind = .log

instance (h : Head) : Decidable h.OpensFirst := inferInstanceAs (Decidable (_ ∨ _))

/-- The children that a node hands on as operands. -/
def handed (h : Head) : List (Slot α) → List α
  | [] => []
  | s :: slots => (if h.OpensFirst then s.content else s.itself) :: slots.map Slot.itself

/-- All that can come of reading a node. -/
inductive Reads (h : Head) (isTwo : α → Bool) (slots : List (Slot α)) :
    Except Fault (Reading α) → Prop where
  /-- A node without children has a meaning without operands. -/
  | value {r : Reading α} (hleaf : h.isLeaf) (hr : r.operands = []) : Reads h isTwo slots (.ok r)
  | all {r : Reading α} (hform : h.form ≠ .unary) (hcount : ∀ k ∈ h.operandCount?, slots.length = k)
      (hr : r.operands = h.handed slots) : Reads h isTwo slots (.ok r)
  /-- The degree of a square root is not handed on. -/
  | squareRoot {degree radicand : Slot α} (hkind : h.kind = .root)
      (hslots : slots = [degree, radicand]) (htwo : isTwo degree.content) :
      Reads h isTwo slots (.ok (.squareRoot radicand.itself))
  /-- A node with one operand takes the first of its children. -/
  | first {s : Slot α} {others : List (Slot α)} {r : Reading α} (hform : h.form = .unary)
      (hslots : slots = s :: others) (hr : r.operands = [s.itself]) : Reads h isTwo slots (.ok r)
  | miscounted {k : Nat} (hk : k ∈ h.operandCount?) (hcount : slots.length ≠ k)
      (hform : h.form = .unary → slots = []) :
      Reads h isTwo slots (.error (.arity h.kind k slots.length))
  | lacking {field : Field} (hform : h.form ≠ .unary) (hopens : ¬ h.OpensFirst)
      (hcount : ∀ k ∈ h.operandCount?, slots.length = k) (hstrict : h.strict)
      (hlacks : h.Lacks field) : Reads h isTwo slots (.error (.unset field h.kind))

/-! ### Values -/

/-- Whether a value can be read, or is not set on a strict node. -/
def Yields (h : Head) (value : Except Fault β) : Prop :=
  (∃ b, value = .ok b) ∨
    ∃ field, h.strict ∧ h.Lacks field ∧ value = .error (.unset field h.kind)

theorem yields_demand {field : Field} {slot : Option (Option β)} {default : β}
    (hslot : slot ≠ none) (hlacks : slot = some none → h.Lacks field) :
    h.Yields (h.demand field slot default) := by
  rcases slot with _ | _ | b
  · exact absurd rfl hslot
  · cases hs : h.strict with
    | false => exact .inl ⟨default, by simp [demand, hs]⟩
    | true => exact .inr ⟨field, hs, hlacks rfl, by simp [demand, hs]⟩
  · exact .inl ⟨b, rfl⟩

theorem yields_name (hform : h.form ∈ [.identifier, .csymbol, .binary, .call]) :
    h.Yields h.name := by
  rw [form] at hform
  refine yields_demand ?_ fun hn => ?_
  · cases hp : h.payload <;> simp_all [Payload.form, Payload.symbol?]
  · obtain ⟨symbol, hsymbol, hnone⟩ := Option.map_eq_some_iff.1 hn
    simp [Lacks, datum?, hsymbol, hnone, Datum.ofText?]

theorem yields_integer (hform : h.form = .integer) : h.Yields h.integer := by
  rw [form] at hform
  refine yields_demand ?_ fun hn => by simp [Lacks, datum?, hn, Datum.ofInteger?]
  cases hp : h.payload <;> simp_all [Payload.form, Payload.integer?]

theorem yields_numerator (hform : h.form = .rational) : h.Yields h.numerator := by
  rw [form] at hform
  refine yields_demand ?_ fun hn => by simp [Lacks, datum?, hn, Datum.ofInteger?]
  cases hp : h.payload <;> simp_all [Payload.form, Payload.numerator?]

theorem yields_denominator (hform : h.form = .rational) : h.Yields h.denominator := by
  rw [form] at hform
  refine yields_demand ?_ fun hn => by simp [Lacks, datum?, hn, Datum.ofInteger?]
  cases hp : h.payload <;> simp_all [Payload.form, Payload.denominator?]

theorem yields_exponent (hform : h.form = .exponential) : h.Yields h.exponent := by
  rw [form] at hform
  refine yields_demand ?_ fun hn => by simp [Lacks, datum?, hn, Datum.ofInteger?]
  cases hp : h.payload <;> simp_all [Payload.form, Payload.exponent?]

theorem yields_mantissa (hform : h.form = .exponential) : h.Yields h.mantissa := by
  rw [form] at hform
  refine yields_demand ?_ fun hn => ?_
  · cases hp : h.payload <;> simp_all [Payload.form, Payload.mantissa?]
  · -- a mantissa is not set if it is not a number
    obtain ⟨value, hvalue, hset⟩ := Option.map_eq_some_iff.1 hn
    have hnan : value.isNan := by
      cases hnan : value.isNan with
      | true => rfl
      | false => simp [setReal, hnan] at hset
    simpa [Lacks, datum?, hvalue] using hnan

/-! ### One rule for each way of reading -/

theorem handed_of_not_opensFirst (hopens : ¬ h.OpensFirst) :
    h.handed slots = slots.map Slot.itself := by
  cases slots with
  | nil => rfl
  | cons s slots => rw [handed, if_neg hopens, List.map_cons]

theorem two_cases (h : Head) (xs : List α) :
    (∃ x y, xs = [x, y] ∧ h.two xs = .ok (x, y)) ∨
      xs.length ≠ 2 ∧ h.two xs = .error (.arity h.kind 2 xs.length) := by
  rcases xs with _ | ⟨x, _ | ⟨y, _ | ⟨z, xs⟩⟩⟩
  · exact .inr ⟨Nat.noConfusion, rfl⟩
  · exact .inr ⟨by simp, rfl⟩
  · exact .inl ⟨x, y, rfl, rfl⟩
  · exact .inr ⟨by simp, rfl⟩

theorem one_cases (h : Head) (xs : List α) :
    (∃ x rest, xs = x :: rest ∧ h.one xs = .ok x) ∨
      xs = [] ∧ h.one xs = .error (.arity h.kind 1 xs.length) := by
  cases xs with
  | nil => exact .inr ⟨rfl, rfl⟩
  | cons x rest => exact .inl ⟨x, rest, rfl, rfl⟩

theorem full_cases (h : Head) (xs : List α) :
    xs.length = h.capacity.getD 1 ∧ h.full xs = .ok xs ∨
      xs.length ≠ h.capacity.getD 1 ∧ h.full xs = .error (.arity h.kind (h.capacity.getD 1) xs.length) := by
  by_cases hlen : xs.length = h.capacity.getD 1
  · exact .inl ⟨hlen, if_pos hlen⟩
  · exact .inr ⟨hlen, if_neg hlen⟩

theorem Sound.form_of_kind {kind : Kind} (hs : h.Sound) (hk : h.kind = kind) (hkind : kind ≠ .minus) :
    h.form = .ofKind kind := hk ▸ hs.form_eq (hk ▸ hkind)

theorem Sound.form_of_opensFirst (hs : h.Sound) (hopens : h.OpensFirst) : h.form = .binary := by
  rcases hopens with hk | hk
  · exact hs.form_of_kind hk Kind.noConfusion
  · exact hs.form_of_kind hk Kind.noConfusion

theorem Reads.nary {r : Reading α} (hform : h.form ∈ [.nary, .lambda, .piecewise, .call])
    (hopens : ¬ h.OpensFirst) (hr : r.operands = slots.map Slot.itself) :
    h.Reads isTwo slots (.ok r) := by
  refine .all ?_ ?_ (hr.trans (handed_of_not_opensFirst hopens).symm)
  · rintro hunary
    simp [hunary] at hform
  · rcases (by simpa using hform : _ ∨ _ ∨ _ ∨ _) with hform | hform | hform | hform <;>
      simp [operandCount?, hform]

theorem Reads.binary {make : α × α → Reading α} (hform : h.form = .binary) (hopens : ¬ h.OpensFirst)
    (hmake : ∀ x y, (make (x, y)).operands = [x, y]) :
    h.Reads isTwo slots (make <$> h.two (slots.map Slot.itself)) := by
  have hcount : h.operandCount? = some 2 := by simp [operandCount?, hform]
  rw [two_map]
  rcases h.two_cases slots with ⟨x, y, rfl, htwo⟩ | ⟨hlen, htwo⟩ <;> rw [htwo]
  · refine .all (by simp [hform]) (by simp [hcount]) ?_
    rw [handed_of_not_opensFirst hopens]
    exact hmake ..
  · exact .miscounted hcount hlen (by simp [hform])

theorem Reads.unary {make : α → Reading α} (hform : h.form = .unary)
    (hmake : ∀ x, (make x).operands = [x]) :
    h.Reads isTwo slots (make <$> h.one (slots.map Slot.itself)) := by
  rw [one_map]
  rcases h.one_cases slots with ⟨x, rest, rfl, hone⟩ | ⟨rfl, hone⟩ <;> rw [hone]
  · exact .first hform rfl (hmake _)
  · exact .miscounted (k := 1) (by simp [operandCount?, hform]) (by simp) fun _ => rfl

theorem form_ne_unary_of_isLeaf (hleaf : h.isLeaf) : h.form ≠ .unary := by
  rw [isLeaf] at hleaf
  rintro hform
  rw [hform] at hleaf
  cases hleaf

theorem operandCount?_of_isLeaf (hleaf : h.isLeaf) : h.operandCount? = none := by
  rw [isLeaf] at hleaf
  cases hform : h.form <;> simp_all [operandCount?, Form.isLeaf]

/-- A number or a symbol is read off its values. -/
theorem Reads.leaf {value : Except Fault β} {make : β → Except Fault (Reading α)}
    (hleaf : h.isLeaf) (hopens : ¬ h.OpensFirst) (hvalue : h.Yields value)
    (hmake : ∀ b, h.Reads isTwo slots (make b)) : h.Reads isTwo slots (value >>= make) := by
  rcases hvalue with ⟨b, rfl⟩ | ⟨field, hstrict, hlacks, rfl⟩
  · exact hmake b
  · have hcount := operandCount?_of_isLeaf hleaf
    exact .lacking (form_ne_unary_of_isLeaf hleaf) hopens (by simp [hcount]) hstrict hlacks

/-- A qualifier is full when it has the operands that it needs. -/
theorem operandCount?_of_qualifier {q : Qualifier} (hform : h.form = .qualifier)
    (hk : h.kind = .qualifier q) : h.operandCount? = some (h.capacity.getD 1) := by
  rw [operandCount?, capacity, hform, hk]
  cases q <;> rfl

/-- Nothing else can come of reading a node whose form allows its kind. -/
theorem Sound.reads (hs : h.Sound) : h.Reads isTwo slots (h.reading? isTwo slots) := by
  cases hk : h.kind with
  | plus | times | connective | lambda | piecewise =>
    have hform := hs.form_of_kind hk Kind.noConfusion
    simp only [reading?, hk]
    exact .nary (by simp [hform, Form.ofKind]) (by simp [OpensFirst, hk]) rfl
  | divide | power | relation =>
    have hform := hs.form_of_kind hk Kind.noConfusion
    simp only [reading?, hk]
    exact .binary hform (by simp [OpensFirst, hk]) fun _ _ => rfl
  | minus =>
    simp only [reading?, hk]
    split
    · exact .unary ‹_› fun _ => rfl
    · have hforms : ∀ form : Form, form.allows .minus → form = .unary ∨ form = .binary := by
        intro form
        cases form <;> decide
      have hform := (hforms h.form (hk ▸ hs)).resolve_left ‹_›
      exact .binary hform (by simp [OpensFirst, hk]) fun _ _ => rfl
  | not | elementary =>
    have hform := hs.form_of_kind hk Kind.noConfusion
    simp only [reading?, hk]
    exact .unary hform fun _ => rfl
  | root =>
    have hform : h.form = .binary := hs.form_of_kind hk Kind.noConfusion
    have hopens : h.OpensFirst := .inl hk
    have hcount : h.operandCount? = some 2 := by simp [operandCount?, hform]
    simp only [reading?, hk]
    rcases h.two_cases slots with ⟨x, y, rfl, htwo⟩ | ⟨hlen, htwo⟩ <;> rw [htwo]
    · show h.Reads isTwo [x, y] (.ok (rootReading isTwo x.content y.itself))
      unfold rootReading
      split
      · exact .squareRoot hk rfl ‹_›
      · refine .all (by simp [hform]) (by simp [hcount]) ?_
        rw [handed, if_pos hopens]
        rfl
    · exact .miscounted hcount hlen (by simp [hform])
  | log =>
    have hform : h.form = .binary := hs.form_of_kind hk Kind.noConfusion
    have hopens : h.OpensFirst := .inr hk
    have hcount : h.operandCount? = some 2 := by simp [operandCount?, hform]
    simp only [reading?, hk]
    rcases h.two_cases slots with ⟨x, y, rfl, htwo⟩ | ⟨hlen, htwo⟩ <;> rw [htwo]
    · refine .all (by simp [hform]) (by simp [hcount]) ?_
      rw [handed, if_pos hopens]
      rfl
    · exact .miscounted hcount hlen (by simp [hform])
  | delay =>
    have hform : h.form = .binary := hs.form_of_kind hk Kind.noConfusion
    have hopens : ¬ h.OpensFirst := by simp [OpensFirst, hk]
    have hcount : h.operandCount? = some 2 := by simp [operandCount?, hform]
    have hname : h.Yields h.name := yields_name (by simp [hform])
    simp only [reading?, hk, two_map]
    rcases h.two_cases slots with ⟨x, y, rfl, htwo⟩ | ⟨hlen, htwo⟩ <;> rw [htwo]
    · rcases hname with ⟨name, hname⟩ | ⟨field, hstrict, hlacks, hname⟩ <;> rw [hname]
      · refine .all (by simp [hform]) (by simp [hcount]) ?_
        rw [handed_of_not_opensFirst hopens]
        rfl
      · exact .lacking (by simp [hform]) hopens (by simp [hcount]) hstrict hlacks
    · exact .miscounted hcount hlen (by simp [hform])
  | qualifier q =>
    have hform : h.form = .qualifier := hs.form_of_kind hk Kind.noConfusion
    have hopens : ¬ h.OpensFirst := by simp [OpensFirst, hk]
    have hcount := operandCount?_of_qualifier hform hk
    simp only [reading?, hk, full_map]
    rcases h.full_cases slots with ⟨hlen, hfull⟩ | ⟨hlen, hfull⟩ <;> rw [hfull]
    · refine .all (by simp [hform]) (by simp [hcount, hlen]) ?_
      rw [handed_of_not_opensFirst hopens]
      rfl
    · exact .miscounted hcount hlen (by simp [hform])
  | call =>
    have hform : h.form = .call := hs.form_of_kind hk Kind.noConfusion
    have hopens : ¬ h.OpensFirst := by simp [OpensFirst, hk]
    have hcount : h.operandCount? = none := by simp [operandCount?, hform]
    have hname : h.Yields h.name := yields_name (by simp [hform])
    simp only [reading?, hk]
    rcases hname with ⟨name, hname⟩ | ⟨field, hstrict, hlacks, hname⟩ <;> rw [hname]
    · exact .nary (by simp [hform]) hopens rfl
    · exact .lacking (by simp [hform]) hopens (by simp [hcount]) hstrict hlacks
  | constant | unknown =>
    have hform := hs.form_of_kind hk Kind.noConfusion
    simp only [reading?, hk]
    exact .value (by simp [isLeaf, hform, Form.ofKind, Form.isLeaf]) rfl
  | real =>
    have hform := hs.form_of_kind hk Kind.noConfusion
    simp only [reading?, hk]
    refine .value (by simp [isLeaf, hform, Form.ofKind, Form.isLeaf]) ?_
    split <;> rfl
  | name | time | avogadro =>
    have hform := hs.form_of_kind hk Kind.noConfusion
    have hleaf : h.isLeaf := by simp [isLeaf, hform, Form.ofKind, Form.isLeaf]
    simp only [reading?, hk]
    exact .leaf hleaf (by simp [OpensFirst, hk]) (yields_name (by simp [hform, Form.ofKind]))
      fun _ => .value hleaf rfl
  | integer =>
    have hform : h.form = .integer := hs.form_of_kind hk Kind.noConfusion
    have hleaf : h.isLeaf := by rw [isLeaf, hform]; rfl
    simp only [reading?, hk]
    exact .leaf hleaf (by simp [OpensFirst, hk]) (yields_integer hform) fun _ => .value hleaf rfl
  | rational =>
    have hform : h.form = .rational := hs.form_of_kind hk Kind.noConfusion
    have hleaf : h.isLeaf := by rw [isLeaf, hform]; rfl
    have hopens : ¬ h.OpensFirst := by simp [OpensFirst, hk]
    simp only [reading?, hk]
    exact .leaf hleaf hopens (yields_numerator hform) fun _ =>
      .leaf hleaf hopens (yields_denominator hform) fun _ => .value hleaf rfl
  | exponential =>
    have hform : h.form = .exponential := hs.form_of_kind hk Kind.noConfusion
    have hleaf : h.isLeaf := by rw [isLeaf, hform]; rfl
    have hopens : ¬ h.OpensFirst := by simp [OpensFirst, hk]
    simp only [reading?, hk]
    exact .leaf hleaf hopens (yields_mantissa hform) fun _ =>
      .leaf hleaf hopens (yields_exponent hform) fun _ => .value hleaf rfl

end Head

end MathTree

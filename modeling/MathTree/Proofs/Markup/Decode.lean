import MathTree.Proofs.Markup.Scan
import Mathlib.Data.Nat.Digits.Defs

/-!
# What content MathML tells of a tree

The `Traits` of a node are what content MathML tells of it: its form and kind, the attributes by
which it is presented, its whole numbers with their units, and its name.  The portrait of a tree is
the tree of its traits (`Tree.portrait`), and `decode` paints it from a text.  An application is told
by its operator, a number by its type, a symbol by its definition, and any other element by its tag.
-/

namespace MathTree

open MathTree.Number MathTree.Markup

/-! ### Kinds and tokens -/

namespace Kind

theorem mem_all (kind : Kind) : kind ∈ all := by
  cases kind with
  | relation r => cases r <;> decide
  | connective c => cases c <;> decide
  | constant c => cases c <;> decide
  | elementary f => cases f <;> decide
  | qualifier q => cases q <;> decide
  | _ => decide

/-- The kinds whose nodes have a name. -/
def isNamed : Kind → Bool
  | .name | .time | .avogadro | .delay | .call => true
  | _ => false

theorem isNumber_of_isNamed {kind : Kind} (hnamed : kind.isNamed) : kind.isNumber = false := by
  cases kind <;> first | rfl | cases hnamed

/-- Whether all that markup tells of a node of this kind, its attributes apart, is the kind. -/
def isBare (kind : Kind) : Bool := !kind.isNumber && !kind.isNamed

theorem isNumber_of_isBare {kind : Kind} (hbare : kind.isBare) : kind.isNumber = false := by
  simp only [isBare, Bool.and_eq_true, Bool.not_eq_true'] at hbare
  exact hbare.1

/-- A bare kind is read off the name of its element, which is not that of an identifier or of an
application. -/
theorem ofToken_elementName {kind : Kind} {tag : String} (hbare : kind.isBare)
    (htag : kind.elementName = some tag) :
    ofToken tag = kind ∧ tag ≠ "ci" ∧ tag ≠ "apply" := by
  have hall : all.all fun k => !k.isBare || k.elementName.all fun tag =>
      ofToken tag = k ∧ tag ≠ "ci" ∧ tag ≠ "apply" := by decide +kernel
  have hkind := List.all_eq_true.1 hall kind kind.mem_all
  simpa [htag, hbare] using hkind

end Kind

/-! ### Portraits -/

/-- What a node carries that markup tells. -/
inductive Content where
  | integer (value : Option Int32) (units : Option String)
  | rational (numerator denominator : Option Int32) (units : Option String)
  | named (name : Option String)
  | bare
  deriving DecidableEq, Repr

/-- What markup tells of a node. -/
structure Traits where
  form : Form
  kind : Kind
  id : Option String
  style : Option String
  styleClass : Option String
  content : Content
  deriving DecidableEq, Repr

/-- A tree of traits. -/
abbrev Portrait := Rose Traits

def Head.content (h : Head) : Content :=
  match h.kind with
  | .integer => .integer h.payload.integer?.join h.units?
  | .rational => .rational h.payload.numerator?.join h.payload.denominator?.join h.units?
  | .name | .time | .avogadro | .delay | .call => .named h.name?
  | _ => .bare

theorem Head.content_of_isBare {h : Head} (hbare : h.kind.isBare) : h.content = .bare := by
  unfold content
  cases hk : h.kind <;> first | rfl | (rw [hk] at hbare; cases hbare)

theorem Head.content_of_isNamed {h : Head} (hnamed : h.kind.isNamed) :
    h.content = .named h.name? := by
  unfold content
  cases hk : h.kind <;> first | rfl | (rw [hk] at hnamed; cases hnamed)

def Head.traits (h : Head) : Traits :=
  ⟨h.form, h.kind, h.id, h.style, h.styleClass, h.content⟩

/-- What markup tells of a tree, node by node. -/
def Tree.portrait (t : Tree) : Portrait := t.map Head.traits

theorem Tree.portrait_node (h : Head) (ts : List Tree) :
    portrait (.node h ts) = .node h.traits (ts.map portrait) := Rose.map_node ..

/-! ### The decoder -/

/-- The form of a node by its kind and its number of operands: a `minus` of one operand is a
negation. -/
def Form.ofOperands (kind : Kind) (operands : Nat) : Form :=
  if kind = .minus ∧ operands = 1 then .unary else .ofKind kind

namespace Markup

/-- The value of the first attribute of a name. -/
def lookup (attributes : List Attribute) (name : String) : Option String :=
  (attributes.find? fun a => a.name == name).map Attribute.value

/-- The whole number that a run of text is. -/
def wholeNumber (text : String) : Int :=
  let digits := Nat.ofDigitChars 10 (text.toList.filter Char.isDigit) 0
  if '-' ∈ text.toList then -digits else digits

namespace Label

variable (l : Label)

/-- The kind of node that opens with this element. -/
def kind : Kind :=
  .ofToken ((lookup l.attributes "type" <|> lookup l.attributes "definitionURL").getD l.tag)

/-- The kind of node of which this is the operator. -/
def operatorKind : Kind := if l.tag = "ci" then .call else l.kind

def number? (i : Nat) : Option Int32 := l.runs[i]?.map fun run => .ofInt (wholeNumber run)

/-- What a node of a kind carries, by the element that tells its kind. -/
def content : Kind → Content
  | .integer => .integer (l.number? 0) (lookup l.attributes "sbml:units")
  | .rational => .rational (l.number? 0) (l.number? 1) (lookup l.attributes "sbml:units")
  | .name | .time | .avogadro | .delay | .call => .named (some (String.join l.runs))
  | _ => .bare

theorem content_of_isBare {kind : Kind} (hbare : kind.isBare) : l.content kind = .bare := by
  cases kind <;> first | rfl | cases hbare

theorem content_of_isNamed {kind : Kind} (hnamed : kind.isNamed) :
    l.content kind = .named (some (String.join l.runs)) := by
  cases kind <;> first | rfl | cases hnamed

/-- The traits of a node of a kind that has this element, with what it carries and its number of
operands. -/
def traits (kind : Kind) (content : Content) (operands : Nat) : Traits :=
  { form := .ofOperands kind operands
    kind := kind
    id := lookup l.attributes "id"
    style := lookup l.attributes "style"
    styleClass := lookup l.attributes "class"
    content := content }

end Label

namespace Xml

/-- One element, from the elements in it and what they tell. -/
def paint (l : Label) (inside : List (Xml × Portrait)) : Portrait :=
  if l.tag = "apply" then
    match inside with
    | [] => .node (l.traits .unknown .bare 0) []
    | (operator, _) :: operands =>
      let kind := operator.label.operatorKind
      .node (l.traits kind (operator.label.content kind) operands.length) (operands.map (·.2))
  else
    .node (l.traits l.kind (l.content l.kind) 0)
      (if l.kind.isNumber then [] else inside.map (·.2))

/-- What an element tells. -/
def portrait : Xml → Portrait := Rose.para paint

end Xml

/-- What a text tells. -/
def decode (text : String) : Portrait := (Xml.read text).portrait

/-! ### Attributes and numbers -/

section Lookup

variable {name : String}

theorem lookup_append (attributes others : List Attribute) :
    lookup (attributes ++ others) name = (lookup attributes name).or (lookup others name) := by
  rw [lookup, List.find?_append, lookup, lookup]
  cases attributes.find? fun a => a.name == name <;> rfl

theorem lookup_nil : lookup [] name = none := rfl

theorem lookup_cons (a : Attribute) (others : List Attribute) :
    lookup (a :: others) name = if a.name = name then some a.value else lookup others name := by
  unfold lookup
  split_ifs with h
  · rw [List.find?_cons_of_pos (by simpa using h)]
    rfl
  · rw [List.find?_cons_of_neg (by simpa using h)]

theorem lookup_optional (own : String) (value : Option String) :
    lookup (value.map (Attribute.mk own)).toList name = if own = name then value else none := by
  cases value with
  | none => simp [lookup]
  | some value => simp [lookup_cons, lookup_nil]

end Lookup

/-- A whole number is read back from its digits. -/
theorem wholeNumber_intText (n : Int) : wholeNumber (" " ++ intText n ++ " ") = n := by
  let digits := Nat.toDigits 10 n.natAbs
  have hdigit : ∀ c ∈ digits, c.isDigit := fun c hc =>
    Nat.isDigit_of_mem_toDigits (by decide) (by decide) hc
  have hfilter : digits.filter Char.isDigit = digits := List.filter_eq_self.2 hdigit
  have hminus : '-' ∉ digits := fun hc => by cases hdigit _ hc
  have htext : (" " ++ intText n ++ " ").toList
      = [' '] ++ (if n < 0 then ['-'] else []) ++ digits ++ [' '] := by
    unfold intText
    split_ifs <;> simp [digits]
  have hread : (" " ++ intText n ++ " ").toList.filter Char.isDigit = digits := by
    rw [htext]
    split_ifs <;> simp [hfilter]
  have hsign : '-' ∈ (" " ++ intText n ++ " ").toList ↔ n < 0 := by
    rw [htext]
    split_ifs with hneg <;> simp [hminus, hneg]
  have hvalue : (Nat.ofDigitChars 10 digits 0 : Int) = n.natAbs := by
    rw [Nat.ofDigitChars_ten_toDigits]
  unfold wholeNumber
  simp only [hread, hsign, hvalue]
  split_ifs <;> omega

end Markup

end MathTree

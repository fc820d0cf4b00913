import Mathlib.Tactic.SplitIfs
import MathTree.Proofs.Markup.Draft
import MathTree.Proofs.Number.Plain

/-!
# Rules for drafts

Whatever trees come to is put together in few ways: elements of one line take what waits, and elements
stand around others.  What waits is always what presents a node (`Presents`), tags are names, numbers
are plain, and units are those of numbers that the tree shows (`Tree.units`).  A property that holds of
all that is put together so (`Rules`) holds of what any tree comes to (`Rules.elementWith`).
-/

namespace MathTree

open MathTree.Number MathTree.Markup MathML

namespace Markup

/-- The characters of names in markup. -/
def isLabelChar (c : Char) : Bool := c.isAlpha || c == ':'

/-- Whether a text can be the name of an element or of an attribute: letters, and colons between
them. -/
def isLabel (text : String) : Bool :=
  text.toList.all isLabelChar && text.toList.head?.any Char.isAlpha

end Markup

/-! ### What waits -/

namespace MathML

/-- Whether attributes are some of those by which a node is presented, in their order. -/
def Presents (waiting : List Attribute) : Prop :=
  (waiting.map Attribute.name).Sublist ["id", "style", "class"]

/-- An attribute that may be there. -/
theorem sublist_optional (name : String) (value : Option String) :
    ((value.map (Attribute.mk name)).toList.map Attribute.name).Sublist [name] := by
  cases value with
  | none => exact List.nil_sublist _
  | some value => exact .refl _

theorem presents_presentation (h : Head) : Presents (presentation h) := by
  rw [Presents, presentation, List.map_append, List.map_append]
  exact ((sublist_optional "id" h.id).append (sublist_optional "style" h.style)).append
    (sublist_optional "class" h.styleClass)

theorem presents_nil : Presents [] := List.nil_sublist _

end MathML

/-! ### Units -/

namespace Tree

/-- The units of all numbers that a tree shows. -/
def units : Tree → List String := foldShown fun h units => h.units?.toList ++ units.flatten

theorem units_eq (t : Tree) : t.units = t.head.units?.toList ++ t.shown.flatMap units := by
  cases t
  exact foldShown_node _ _ _

theorem units_subset_of_mem_shown {t u : Tree} (h : u ∈ t.shown) : u.units ⊆ t.units := by
  intro value hvalue
  rw [units_eq, List.mem_append]
  exact .inr (List.mem_flatMap.2 ⟨u, h, hvalue⟩)

theorem units_content_subset (t : Tree) : t.content.units ⊆ t.units := by
  rcases t.content_cases with h | h
  · rw [h]
    exact List.Subset.refl _
  · exact units_subset_of_mem_shown h

end Tree

namespace Reading

/-- The units of a number. -/
def units? {α : Type} : Reading α → Option String
  | .integer _ units | .real _ units | .rational _ _ units | .exponential _ _ units => units
  | _ => none

/-- The units of a number, or those of the operands. -/
def units (r : Reading Tree) : List String := r.units?.toList ++ r.operands.flatMap Tree.units

theorem units_subset_of_mem_operands {r : Reading Tree} {x : Tree} (hx : x ∈ r.operands) :
    x.units ⊆ r.units :=
  fun _ hvalue => List.mem_append_right _ (List.mem_flatMap.2 ⟨x, hx, hvalue⟩)

end Reading

/-- The units of a number are those that are set. -/
theorem Head.units?_of_reading {α : Type} {h : Head} {isTwo : α → Bool} {slots : List (Slot α)}
    {r : Reading α} (hr : h.reading? isTwo slots = .ok r) : r.units? = none ∨ r.units? = h.units? := by
  cases hk : h.kind with
  | plus | times | connective | lambda | piecewise | constant | unknown =>
    simp only [reading?, hk] at hr
    cases hr
    exact .inl rfl
  | divide | power | log | relation | not | elementary | name | time | avogadro | call | qualifier =>
    simp only [reading?, hk] at hr
    obtain ⟨_, -, rfl⟩ := exists_of_map_eq_ok hr
    exact .inl rfl
  | root =>
    simp only [reading?, hk] at hr
    obtain ⟨_, -, rfl⟩ := exists_of_map_eq_ok hr
    unfold rootReading
    split <;> exact .inl rfl
  | minus =>
    simp only [reading?, hk] at hr
    split at hr <;>
    · obtain ⟨_, -, rfl⟩ := exists_of_map_eq_ok hr
      exact .inl rfl
  | delay =>
    simp only [reading?, hk] at hr
    obtain ⟨_, -, hr⟩ := exists_of_bind_eq_ok hr
    obtain ⟨_, -, hr⟩ := exists_of_bind_eq_ok hr
    cases hr
    exact .inl rfl
  | real =>
    simp only [reading?, hk] at hr
    split at hr
    · cases hr
      exact .inl rfl
    · cases hr
      exact .inr rfl
  | integer =>
    simp only [reading?, hk] at hr
    obtain ⟨_, -, hr⟩ := exists_of_bind_eq_ok hr
    cases hr
    exact .inr rfl
  | rational | exponential =>
    simp only [reading?, hk] at hr
    obtain ⟨_, -, hr⟩ := exists_of_bind_eq_ok hr
    obtain ⟨_, -, hr⟩ := exists_of_bind_eq_ok hr
    cases hr
    exact .inr rfl

theorem Tree.units_reading_subset {t : Tree} {r : Reading Tree} (hr : t.reading? = .ok r) :
    r.units ⊆ t.units := by
  intro value hvalue
  rcases List.mem_append.1 hvalue with hvalue | hvalue
  · rcases Head.units?_of_reading hr with h | h
    · rw [h] at hvalue
      exact absurd hvalue List.not_mem_nil
    · rw [h] at hvalue
      rw [units_eq]
      exact List.mem_append_left _ hvalue
  · obtain ⟨x, hx, hvalue⟩ := List.mem_flatMap.1 hvalue
    obtain ⟨u, hu, rfl | rfl⟩ := mem_operands hr hx
    · exact units_subset_of_mem_shown hu hvalue
    · exact units_subset_of_mem_shown hu (u.units_content_subset hvalue)

/-! ### The rules -/

namespace MathML

/-- Whether a property of what is made, one element (`P`) or some elements (`All`), is kept by the ways
in which drafts are put together out of numbers with these units. -/
structure Rules (V : String → Prop) (P : Except Halt Element → Prop)
    (All : Except Halt (List Element) → Prop) : Prop where
  halt {waiting : List Attribute} (fault : Fault) (hwaiting : Presents waiting) :
    P (.error ⟨fault, 0, waiting⟩)
  nil : All (.ok [])
  followedBy {first : Except Halt Element} {others : Except Halt (List Element)} (h : P first)
    (h' : All others) : All (followedBy first others)
  around {tag : String} {waiting : List Attribute} {content : Except Halt (List Element)}
    (htag : isLabel tag) (hwaiting : Presents waiting) (h : All content) :
    P (around tag waiting content)
  empty {tag : String} {waiting : List Attribute} (htag : isLabel tag) (hwaiting : Presents waiting) :
    P (.ok (.empty tag waiting))
  text {tag : String} {waiting : List Attribute} (text : String) (htag : isLabel tag)
    (hwaiting : Presents waiting) : P (.ok (.text tag waiting text))
  symbol {waiting : List Attribute} (url name : String) (hwaiting : Presents waiting) :
    P (.ok (symbolElement waiting url name))
  number {waiting : List Attribute} {units : Option String} {part : String} {parts : List String}
    (type : Option String) (hwaiting : Presents waiting) (hunits : ∀ u ∈ units, V u)
    (hparts : ∀ p ∈ part :: parts, IsPlain p) : P (.ok (cn waiting type units (part :: parts)))

namespace Rules

variable {V : String → Prop} {P : Except Halt Element → Prop} {All : Except Halt (List Element) → Prop}
  {waiting : List Attribute} {tag : String} {x : Tree} {xs : List Tree}

theorem elementsOf (R : Rules V P All) (xs : List Tree) (h : ∀ x ∈ xs, P x.element) :
    All (elementsOf (xs.map (Tree.operand drafter))) := by
  induction xs with
  | nil => exact R.nil
  | cons x xs ih =>
    obtain ⟨hx, hxs⟩ := List.forall_mem_cons.1 h
    exact R.followedBy hx (ih hxs)

theorem applied (R : Rules V P All) {operator : Element} {content : Except Halt (List Element)}
    (hwaiting : Presents waiting) (hoperator : P (.ok operator)) (h : All content) :
    P (applied waiting operator content) :=
  R.around rfl hwaiting (R.followedBy hoperator h)

theorem operation (R : Rules V P All) (xs : List Tree) (htag : isLabel tag)
    (hwaiting : Presents waiting) (h : ∀ x ∈ xs, P x.element) :
    P (operation waiting tag (xs.map (Tree.operand drafter))) :=
  R.applied hwaiting (R.empty htag presents_nil) (R.elementsOf xs h)

theorem enclosing (R : Rules V P All) (xs : List Tree) (htag : isLabel tag)
    (hwaiting : Presents waiting) (h : ∀ x ∈ xs, P x.element) :
    P (Markup.around tag waiting (MathML.elementsOf (xs.map (Tree.operand drafter)))) :=
  R.around htag hwaiting (R.elementsOf xs h)

theorem qualification (R : Rules V P All) (q : Qualifier) (h : P x.element) :
    P (qualification q (x.operand drafter)) := by
  unfold MathML.qualification
  split_ifs
  · exact h
  · exact R.enclosing [x] (by cases q <;> rfl) presents_nil (List.forall_mem_singleton.2 h)

/-- A node is put together by the rules if its operands are. -/
theorem draft (R : Rules V P All) {r : Reading Tree} (hwaiting : Presents waiting)
    (hunits : ∀ u ∈ r.units?, V u) (h : ∀ x ∈ r.operands, P x.element) :
    P (draft (r.map (Tree.operand drafter)) waiting) := by
  cases r with
  | sum | product =>
    simp only [Reading.map, MathML.draft]
    exact R.operation _ rfl hwaiting h
  | connective c =>
    simp only [Reading.map, MathML.draft]
    exact R.operation _ (by cases c <;> rfl) hwaiting h
  | difference | quotient | power =>
    simp only [Reading.map, MathML.draft]
    exact R.operation [_, _] rfl hwaiting h
  | relation r =>
    simp only [Reading.map, MathML.draft]
    exact R.operation [_, _] (by cases r <;> rfl) hwaiting h
  | negation | squareRoot | not =>
    simp only [Reading.map, MathML.draft]
    exact R.operation [_] rfl hwaiting h
  | elementary f =>
    simp only [Reading.map, MathML.draft]
    exact R.operation [_] (by cases f <;> rfl) hwaiting h
  | lambda | piecewise =>
    simp only [Reading.map, MathML.draft]
    exact R.enclosing _ rfl hwaiting h
  | qualifier q =>
    simp only [Reading.map, MathML.draft]
    exact R.enclosing _ (by cases q <;> rfl) hwaiting h
  | integer value units => exact R.number _ hwaiting hunits (by simp [isPlain_intText])
  | rational n d units => exact R.number _ hwaiting hunits (by simp [isPlain_intText])
  | exponential mantissa exponent units =>
    exact R.number _ hwaiting hunits (by simp [isPlain_intText, Binary64.isPlain_realText])
  | real value units =>
    simp only [Reading.map, MathML.draft]
    split_ifs
    · exact R.empty rfl hwaiting
    · exact R.number _ hwaiting hunits (by simp [Binary64.isPlain_realText])
  | avogadro | time => exact R.symbol _ _ hwaiting
  | constant c => exact R.empty (by cases c <;> rfl) hwaiting
  | unknown => exact R.halt _ hwaiting
  | identifier name => exact R.text name rfl hwaiting
  | infinity negative =>
    cases negative with
    | false => exact R.empty rfl hwaiting
    | true =>
      have hinfinity : All (Markup.followedBy (.ok (.empty "infinity" [])) (.ok [])) :=
        R.followedBy (R.empty rfl presents_nil) R.nil
      exact R.applied hwaiting (R.empty rfl presents_nil) hinfinity
  | call name xs => exact R.applied hwaiting (R.text name rfl presents_nil) (R.elementsOf xs h)
  | delay name x lag =>
    exact R.applied hwaiting (R.symbol _ name presents_nil) (R.elementsOf [x, lag] h)
  | root degree radicand =>
    obtain ⟨hdegree, hrest⟩ := List.forall_mem_cons.1 h
    have hradicand := R.elementsOf [radicand] hrest
    simp only [Reading.map, MathML.draft]
    split_ifs
    · exact R.halt _ hwaiting
    · exact R.applied hwaiting (R.empty rfl presents_nil)
        (R.followedBy (R.qualification .degree hdegree) hradicand)
  | logarithm base x =>
    obtain ⟨hbase, hrest⟩ := List.forall_mem_cons.1 h
    have hx := R.elementsOf [x] hrest
    simp only [Reading.map, MathML.draft]
    refine R.applied hwaiting (R.empty rfl presents_nil) ?_
    split_ifs
    · exact hx
    · exact R.followedBy (R.qualification .logbase hbase) hx

/-- Whatever a tree comes to is put together by the rules. -/
theorem elementWith (R : Rules V P All) (t : Tree) (hunits : ∀ u ∈ t.units, V u)
    (hwaiting : Presents waiting) : P (t.elementWith waiting) := by
  -- each operand is written with what presents it, not with what waits for the tree
  induction t using Tree.reading_induction generalizing waiting with
  | step t ih =>
    cases hr : t.reading? with
    | error fault =>
      rw [Tree.elementWith_of_error waiting hr]
      exact R.halt fault hwaiting
    | ok r =>
      have hsubset : ∀ u ∈ r.units, V u := fun u hu => hunits u (Tree.units_reading_subset hr hu)
      rw [Tree.elementWith_of_ok waiting hr]
      refine R.draft hwaiting (fun u hu => ?_) fun x hx => ?_
      · exact hsubset u (List.mem_append_left _ (Option.mem_toList.2 hu))
      · exact ih r hr x hx (fun u hu => hsubset u (Reading.units_subset_of_mem_operands hx hu))
          (presents_presentation x.head)

theorem element (R : Rules V P All) (t : Tree) (hunits : ∀ u ∈ t.units, V u) : P t.element :=
  R.elementWith t hunits (presents_presentation t.head)

end Rules

end MathML

end MathTree

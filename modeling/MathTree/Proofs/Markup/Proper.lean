import MathTree.Proofs.Markup.Rules
import Mathlib.Data.List.Nodup

/-!
# Proper elements

An element is proper if its tags and attributes have names, no two attributes of a tag have the same
name, and numbers are plain (`Element.Proper`).  What stands in texts and in the values of attributes
does not matter.  Whatever comes of a tree is proper (`Tree.proper_of_element`).
-/

namespace MathTree

open MathTree.Number MathTree.Markup

namespace Markup

/-- Whether some attributes have names, no two the same. -/
structure Distinct (attributes : List Attribute) : Prop where
  nodup : (attributes.map Attribute.name).Nodup
  label : ∀ a ∈ attributes, isLabel a.name

/-- Whether names and numbers of an element can stand in markup as they are. -/
inductive Element.Proper : Element → Prop
  | empty {tag : String} {attributes : List Attribute} (htag : isLabel tag)
    (h : Distinct attributes) : Proper (.empty tag attributes)
  | text {tag text : String} {attributes : List Attribute} (htag : isLabel tag)
    (h : Distinct attributes) : Proper (.text tag attributes text)
  | number {attributes : List Attribute} {part : String} {parts : List String}
    (h : Distinct attributes) (hparts : ∀ p ∈ part :: parts, IsPlain p) :
    Proper (.number attributes (part :: parts))
  | around {tag : String} {attributes : List Attribute} {content : List Element}
    (htag : isLabel tag) (h : Distinct attributes) (hcontent : ∀ e ∈ content, Proper e) :
    Proper (.around tag attributes content)

theorem distinct_of_sublist {attributes : List Attribute} {names : List String}
    (h : (attributes.map Attribute.name).Sublist names) (hnodup : names.Nodup)
    (hlabel : ∀ name ∈ names, isLabel name) : Distinct attributes :=
  ⟨hnodup.sublist h, fun _ ha => hlabel _ (h.subset (List.mem_map_of_mem ha))⟩

theorem distinct_nil : Distinct [] := distinct_of_sublist (.refl []) List.nodup_nil nofun

/-! ### What comes of a draft -/

/-- Whether whatever comes of a draft has a property. -/
def Yields {α : Type} (P : α → Prop) (made : Except Halt α) : Prop := ∀ a, made = .ok a → P a

variable {P : Element → Prop} {tag : String} {attributes : List Attribute}

theorem yields_ok {α : Type} {P : α → Prop} {a : α} (h : P a) : Yields P (.ok a) := by
  intro a' ha
  cases ha
  exact h

theorem yields_error {α : Type} {P : α → Prop} (halt : Halt) : Yields P (.error halt) :=
  fun _ ha => by cases ha

theorem Yields.followedBy {first : Except Halt Element} {others : Except Halt (List Element)}
    (h : Yields P first) (h' : Yields (∀ e ∈ ·, P e) others) :
    Yields (∀ e ∈ ·, P e) (followedBy first others) := by
  intro es hes
  obtain ⟨e, es', he, hes', rfl⟩ := followedBy_eq_ok_iff.1 hes
  exact List.forall_mem_cons.2 ⟨h e he, h' es' hes'⟩

theorem Yields.around {content : Except Halt (List Element)}
    (h : Yields (∀ e ∈ ·, e.Proper) content) (htag : isLabel tag)
    (hattributes : Distinct attributes) : Yields Element.Proper (around tag attributes content) := by
  intro e he
  obtain ⟨es, hes, rfl⟩ := around_eq_ok_iff.1 he
  exact .around htag hattributes (h es hes)

end Markup

namespace MathML

variable {waiting : List Attribute}

theorem Presents.distinct (h : Presents waiting) : Distinct waiting :=
  distinct_of_sublist h (by decide) (by decide)

theorem Presents.distinct_append (h : Presents waiting) {others : List Attribute}
    {names : List String} (hothers : (others.map Attribute.name).Sublist names)
    (hnodup : (["id", "style", "class"] ++ names).Nodup) (hlabel : ∀ name ∈ names, isLabel name) :
    Distinct (waiting ++ others) := by
  have hsub : ((waiting ++ others).map Attribute.name).Sublist (["id", "style", "class"] ++ names) := by
    rw [List.map_append]
    exact h.append hothers
  have hpresents : ∀ name ∈ ["id", "style", "class"], isLabel name := by decide
  exact distinct_of_sublist hsub hnodup (List.forall_mem_append.2 ⟨hpresents, hlabel⟩)

theorem Presents.proper_symbolElement (h : Presents waiting) (url name : String) :
    (symbolElement waiting url name).Proper :=
  .text rfl (h.distinct_append (.refl ["encoding", "definitionURL"]) (by decide) (by decide))

theorem Presents.proper_cn (h : Presents waiting) (type units : Option String)
    {part : String} {parts : List String} (hparts : ∀ p ∈ part :: parts, IsPlain p) :
    (cn waiting type units (part :: parts)).Proper := by
  have hothers := (sublist_optional "type" type).append (sublist_optional "sbml:units" units)
  rw [← List.map_append] at hothers
  exact .number (h.distinct_append hothers (by decide) (by decide)) hparts

/-- Whether what a tree comes to is proper. -/
def Properly (x : Tree) : Prop :=
  ∀ waiting, Presents waiting → Yields Element.Proper (x.elementWith waiting)

/-- Whatever is put together of proper elements is proper, with any units. -/
theorem rules_proper :
    Rules (fun _ => True) (Yields Element.Proper) (Yields (∀ e ∈ ·, Element.Proper e)) where
  halt _ _ := yields_error _
  nil := yields_ok fun _ he => absurd he List.not_mem_nil
  followedBy h h' := h.followedBy h'
  around htag hwaiting h := h.around htag hwaiting.distinct
  empty htag hwaiting := yields_ok (.empty htag hwaiting.distinct)
  text _ htag hwaiting := yields_ok (.text htag hwaiting.distinct)
  symbol url name hwaiting := yields_ok (hwaiting.proper_symbolElement url name)
  number type hwaiting _ hparts := yields_ok (hwaiting.proper_cn type _ hparts)

end MathML

namespace Tree

variable {t : Tree}

/-- Whatever comes of a tree is proper. -/
theorem properly (t : Tree) : MathML.Properly t :=
  fun _ hwaiting => MathML.rules_proper.elementWith t (fun _ _ => trivial) hwaiting

theorem proper_of_element {e : Element} (h : t.element = .ok e) : e.Proper :=
  t.properly _ (MathML.presents_presentation t.head) e h

theorem distinct_namespaces (t : Tree) : Distinct t.namespaces := by
  have hsub : (t.namespaces.map Attribute.name).Sublist ["xmlns", "xmlns:sbml"] := by
    unfold namespaces
    split_ifs
    · exact .refl _
    · exact .cons_cons _ (List.nil_sublist _)
  exact distinct_of_sublist hsub (by decide) (by decide)

theorem proper_of_mathWith {e : Element} (h : t.mathWith [] = .ok e) : e.Proper := by
  obtain ⟨root, hroot, rfl⟩ := mathWith_eq_ok_iff.1 h
  exact .around rfl t.distinct_namespaces (by simpa using proper_of_element hroot)

end Tree

end MathTree

import Mathlib.Data.List.Forall2
import MathTree.Proofs.Markup.Draft

/-!
# Whose attributes a tag carries

A tree says which tags its markup has, and whose each of them is (`Tree.places`): the node that opens
an element owns its tag, and so does a qualifier that a root or a logarithm takes apart and has
written anew.  What waits is taken by the right tag, so every tag carries what is set on the node that
opens it, and nothing if none does (`wellTagged`).  Nothing waits for a qualifier that is taken
apart, and what is set on it is lost (`attributes_on_own_tag_iff`).
-/

namespace MathTree

open MathTree.Number MathTree.Markup MathML

/-! ### Tags -/

/-- A start tag or an empty tag. -/
structure Markup.Tag where
  name : String
  attributes : List Attribute
  deriving DecidableEq, Repr

namespace Markup

/-- The attributes of a tag that are for presentation. -/
def Tag.presented (tag : Tag) : List Attribute :=
  tag.attributes.filter fun a => a.name ∈ ["id", "style", "class"]

/-- The start tags and empty tags of a mark. -/
def Mark.tags : Mark → List Tag
  | .start name attributes | .empty name attributes | .element name attributes _ => [⟨name, attributes⟩]
  | .finish _ => []
  | .number attributes parts => ⟨"cn", attributes⟩ :: List.replicate (parts.length - 1) ⟨"sep", []⟩

/-- The start tags and empty tags of some lines. -/
def linesTags (lines : List Line) : List Tag := lines.flatMap (·.mark.tags)

/-- The start tags and empty tags on a sheet. -/
def Sheet.tags (sheet : Sheet) : List Tag := linesTags sheet.lines.toList

theorem linesTags_append (lines lines' : List Line) :
    linesTags (lines ++ lines') = linesTags lines ++ linesTags lines' := by
  simp [linesTags]

theorem linesTags_around (tag : String) (attributes : List Attribute) (es : List Element) (depth : Nat) :
    linesTags ((Element.around tag attributes es).lines depth)
      = ⟨tag, attributes⟩ :: linesTags (linesAll (depth + 1) es) := by
  rw [Element.lines, ← List.singleton_append, linesTags_append, linesTags_append]
  exact congrArg _ (List.append_nil _)

theorem Sheet.tags_extend (s : Sheet) (lines : List Line) (depth : Nat) (pending : List Attribute) :
    (s.extend lines depth pending).tags = s.tags ++ linesTags lines := by
  rw [tags, extend, Array.toList_append, linesTags_append, tags]

end Markup

namespace MathML

/-! ### Places -/

/-- A tag that is due, with the nodes that it is written for. -/
structure Place where
  name : String
  /-- The node that opens the element. -/
  node : Option Head := none
  /-- The qualifier that a root or a logarithm takes apart, and whose tag this is. -/
  qualifier : Option Head := none
  deriving DecidableEq, Repr

namespace Place

/-- What is set on the node that opens the element. -/
def written (p : Place) : List Attribute := p.node.elim [] presentation

/-- Whether a tag carries just what is set on every node that it is written for, and nothing if there
is none. -/
structure Bears (p : Place) (tag : Tag) : Prop where
  name_eq : tag.name = p.name
  of_node : ∀ h ∈ p.node, tag.presented = presentation h
  of_qualifier : ∀ h ∈ p.qualifier, tag.presented = presentation h
  of_none : p.node = none → p.qualifier = none → tag.presented = []

/-- Whether a tag carries just what is set on the node that opens the element. -/
structure Fits (p : Place) (tag : Tag) : Prop where
  name_eq : tag.name = p.name
  presented_eq : tag.presented = p.written

/-- Where a tag carries what is set on the node that opens the element, it is right for a qualifier
just if the same is set on that. -/
theorem Fits.bears_iff {p : Place} {tag : Tag} (h : p.Fits tag) :
    p.Bears tag ↔ ∀ q ∈ p.qualifier, presentation q = p.written := by
  constructor
  · intro hb q hq
    rw [← hb.of_qualifier q hq, h.presented_eq]
  · intro hq
    refine ⟨h.name_eq, fun n hn => ?_, fun q hmem => ?_, fun hn _ => ?_⟩
    · rw [h.presented_eq, written, Option.mem_def.1 hn, Option.elim_some]
    · rw [h.presented_eq, hq q hmem]
    · rw [h.presented_eq, written, hn, Option.elim_none]

end Place

/-- An operand, and the places of a tree whose operand it is. -/
abbrev Placing := Operand (Tree → List Place)

def Placing.places (x : Placing) : List Place := x.result x.tree

end MathML

/-- The qualifier in the first place of a node, if it stands for its content there. -/
def Tree.leadQualifier? (t : Tree) : Option Head :=
  t.shown.head?.bind fun u => if u.kind.isTransparent ∧ u.shown ≠ [] then some u.head else none

namespace MathML

/-- The places of some operands. -/
def allPlaces (xs : List Placing) : List Place := xs.flatMap Placing.places

/-- The places of an application by a node. -/
def appliedPlaces (h : Head) (operator : String) (content : List Place) : List Place :=
  ⟨"apply", h, none⟩ :: ⟨operator, none, none⟩ :: content

/-- The places of an operand that a qualifier stands around.  If it is such a qualifier itself, then
both share a tag. -/
def qualifiedPlaces (q : Qualifier) (given : Option Head) (x : Placing) : List Place :=
  if x.tree.kind = .qualifier q then x.places.modifyHead ({ · with qualifier := given })
  else ⟨q.elementName, none, given⟩ :: x.places

/-- The places of a tree with this reading. -/
def placing (reading : Reading Placing) (t : Tree) : List Place :=
  match reading with
  | .sum xs => appliedPlaces t.head "plus" (allPlaces xs)
  | .product xs => appliedPlaces t.head "times" (allPlaces xs)
  | .connective c xs => appliedPlaces t.head c.elementName (allPlaces xs)
  | .difference x y => appliedPlaces t.head "minus" (allPlaces [x, y])
  | .quotient x y => appliedPlaces t.head "divide" (allPlaces [x, y])
  | .power x y => appliedPlaces t.head "power" (allPlaces [x, y])
  | .relation r x y => appliedPlaces t.head r.elementName (allPlaces [x, y])
  | .negation x => appliedPlaces t.head "minus" (allPlaces [x])
  | .squareRoot x => appliedPlaces t.head "root" (allPlaces [x])
  | .not x => appliedPlaces t.head "not" (allPlaces [x])
  | .elementary f x => appliedPlaces t.head f.elementName (allPlaces [x])
  | .root degree radicand =>
    appliedPlaces t.head "root"
      (qualifiedPlaces .degree t.leadQualifier? degree ++ allPlaces [radicand])
  | .logarithm base x =>
    appliedPlaces t.head "log"
      (if base.tree.isLiteral 10 then allPlaces [x]
        else qualifiedPlaces .logbase t.leadQualifier? base ++ allPlaces [x])
  | .delay _ x lag => appliedPlaces t.head "csymbol" (allPlaces [x, lag])
  | .call _ xs => appliedPlaces t.head "ci" (allPlaces xs)
  | .infinity true => appliedPlaces t.head "minus" [⟨"infinity", none, none⟩]
  | .infinity false => [⟨"infinity", t.head, none⟩]
  | .real value _ => [⟨if value.isNan then "notanumber" else "cn", t.head, none⟩]
  | .integer .. => [⟨"cn", t.head, none⟩]
  | .rational .. | .exponential .. => [⟨"cn", t.head, none⟩, ⟨"sep", none, none⟩]
  | .constant c => [⟨c.elementName, t.head, none⟩]
  | .avogadro _ | .time _ => [⟨"csymbol", t.head, none⟩]
  | .identifier _ => [⟨"ci", t.head, none⟩]
  | .lambda xs => ⟨"lambda", t.head, none⟩ :: allPlaces xs
  | .piecewise xs => ⟨"piecewise", t.head, none⟩ :: allPlaces xs
  | .qualifier q xs => ⟨q.elementName, t.head, none⟩ :: allPlaces xs
  | .unknown => []

/-- How places are given to trees. -/
def placer : Renderer (Tree → List Place) := ⟨fun _ _ => [], placing⟩

end MathML

/-- The start tags and empty tags that the markup of a tree is to have, in order, with the nodes that
they are written for. -/
def Tree.places (t : Tree) : List Place := t.render placer t

namespace MathML

variable {h : Head} {e : Element} {p : Place} {ps ps' : List Place} {made : Except Halt Element}
  {others : Except Halt (List Element)} {tag operator : String} {attributes : List Attribute}

/-! ### Tags that fit -/

/-- Whether an element, if it is made, has tags that fit these places. -/
def Tagged (ps : List Place) (made : Except Halt Element) : Prop :=
  ∀ e, made = .ok e → ∀ depth, List.Forall₂ Place.Fits ps (linesTags (e.lines depth))

/-- Whether some elements, if they are made, have tags that fit these places. -/
def TaggedAll (ps : List Place) (made : Except Halt (List Element)) : Prop :=
  ∀ es, made = .ok es → ∀ depth, List.Forall₂ Place.Fits ps (linesTags (linesAll depth es))

theorem TaggedAll.nil : TaggedAll [] (.ok []) := by
  intro es hes depth
  cases hes
  exact .nil

theorem Tagged.followedBy (hmade : Tagged ps made) (hothers : TaggedAll ps' others) :
    TaggedAll (ps ++ ps') (followedBy made others) := by
  intro es hes depth
  obtain ⟨e, es', he, hes', rfl⟩ := followedBy_eq_ok_iff.1 hes
  rw [linesAll, linesTags_append]
  exact List.rel_append (hmade e he depth) (hothers es' hes' depth)

theorem Tagged.error {halt : Halt} : Tagged ps (.error halt) := by
  intro e he
  cases he

/-- An element of one line. -/
theorem Tagged.line (h : ∀ depth, List.Forall₂ Place.Fits ps (linesTags (e.lines depth))) :
    Tagged ps (.ok e) := by
  intro e' he
  cases he
  exact h

theorem TaggedAll.around (hp : p.Fits ⟨tag, attributes⟩) (h : TaggedAll ps others) :
    Tagged (p :: ps) (around tag attributes others) := by
  intro e he depth
  obtain ⟨es, hes, rfl⟩ := around_eq_ok_iff.1 he
  rw [linesTags_around]
  exact .cons hp (h es hes (depth + 1))

/-! ### The tag that a node opens -/

theorem fits_presentation : Place.Fits ⟨tag, h, none⟩ ⟨tag, presentation h⟩ := by
  refine ⟨rfl, ?_⟩
  obtain ⟨_, _, id, style, styleClass, _⟩ := h
  cases id <;> cases style <;> cases styleClass <;> rfl

theorem fits_bare (given : Option Head) : Place.Fits ⟨tag, none, given⟩ ⟨tag, []⟩ := ⟨rfl, rfl⟩

/-- A tag may have other attributes that are not for presentation. -/
theorem Place.Fits.append {attributes' : List Attribute} (hp : p.Fits ⟨tag, attributes⟩)
    (h : Tag.presented ⟨tag, attributes'⟩ = []) : p.Fits ⟨tag, attributes ++ attributes'⟩ := by
  refine ⟨hp.name_eq, ?_⟩
  calc Tag.presented ⟨tag, attributes ++ attributes'⟩
      = Tag.presented ⟨tag, attributes⟩ ++ Tag.presented ⟨tag, attributes'⟩ := List.filter_append ..
    _ = p.written := by rw [h, List.append_nil, hp.presented_eq]

theorem Place.fits_qualifier {given : Option Head} {tag : Tag} :
    Place.Fits { p with qualifier := given } tag ↔ p.Fits tag :=
  ⟨fun h => ⟨h.name_eq, h.presented_eq⟩, fun h => ⟨h.name_eq, h.presented_eq⟩⟩

theorem tagged_applied {first : Element} (hfirst : Tagged [⟨operator, none, none⟩] (.ok first))
    (h' : TaggedAll ps others) :
    Tagged (appliedPlaces h operator ps) (applied (presentation h) first others) :=
  (hfirst.followedBy h').around fits_presentation

theorem tagged_empty (hp : p.Fits ⟨tag, attributes⟩) : Tagged [p] (.ok (.empty tag attributes)) :=
  .line fun _ => List.Forall₂.cons hp .nil

theorem tagged_text (hp : p.Fits ⟨tag, attributes⟩) (text : String) :
    Tagged [p] (.ok (.text tag attributes text)) :=
  .line fun _ => List.Forall₂.cons hp .nil

theorem tagged_symbolElement (hp : p.Fits ⟨"csymbol", attributes⟩) (url name : String) :
    Tagged [p] (.ok (symbolElement attributes url name)) :=
  tagged_text (hp.append rfl) name

theorem tagged_cn (type units : Option String) (parts : List String) :
    Tagged (⟨"cn", h, none⟩ :: List.replicate (parts.length - 1) ⟨"sep", none, none⟩)
      (.ok (cn (presentation h) type units parts)) := by
  refine .line fun depth => ?_
  have hother : Tag.presented ⟨"cn", (type.map (Attribute.mk "type")).toList
      ++ (units.map (Attribute.mk "sbml:units")).toList⟩ = [] := by
    cases type <;> cases units <;> rfl
  have hseps (n : Nat) : List.Forall₂ Place.Fits (List.replicate n ⟨"sep", none, none⟩)
      (List.replicate n ⟨"sep", []⟩) := by
    induction n with
    | zero => exact .nil
    | succ n ih => exact .cons (fits_bare none) ih
  have hlines : linesTags ((cn (presentation h) type units parts).lines depth) = _ :=
    List.append_nil _
  rw [hlines]
  exact .cons (fits_presentation.append hother) (hseps _)

/-! ### Trees -/

/-- Whether the markup of a tree has the tags that it is to have. -/
def WellTagged (t : Tree) : Prop := Tagged t.places t.element

theorem taggedAll_elementsOf {xs : List Tree} (h : ∀ x ∈ xs, WellTagged x) :
    TaggedAll (allPlaces (xs.map (Tree.operand placer)))
      (elementsOf (xs.map (Tree.operand drafter))) := by
  induction xs with
  | nil => exact .nil
  | cons x xs ih =>
    have hx := h x List.mem_cons_self
    have hxs := ih fun y hy => h y (List.mem_cons_of_mem _ hy)
    exact hx.followedBy hxs

/-- A qualifier fits whatever the qualifier is that it stands for. -/
theorem tagged_qualification {q : Qualifier} {x : Tree} (given : Option Head) (hx : WellTagged x) :
    Tagged (qualifiedPlaces q given (x.operand placer)) (qualification q (x.operand drafter)) := by
  have htree : (x.operand placer).tree = x := rfl
  have htree' : (x.operand drafter).tree = x := rfl
  rw [qualifiedPlaces, qualification, htree, htree']
  split_ifs
  · intro e he depth
    have hfits := hx e he depth
    have hplaces : Placing.places (x.operand placer) = x.places := rfl
    rw [hplaces]
    generalize x.places = ps, linesTags (e.lines depth) = tags at hfits ⊢
    cases hfits with
    | nil => exact .nil
    | cons hfirst hrest => exact .cons (Place.fits_qualifier.2 hfirst) hrest
  · have hall : TaggedAll _ (elementsOf [x.operand drafter]) := hx.followedBy .nil
    rw [List.append_nil] at hall
    exact hall.around (fits_bare given)

/-- A tree has the tags that it is to have if its operands have. -/
theorem tagged_draft (t : Tree) {r : Reading Tree} (hr : ∀ x ∈ r.operands, WellTagged x) :
    Tagged (placing (r.map (Tree.operand placer)) t)
      (draft (r.map (Tree.operand drafter)) (presentation t.head)) := by
  have hbare {operator : String} : Tagged [⟨operator, none, none⟩] (.ok (.empty operator [])) :=
    tagged_empty (fits_bare none)
  cases r with
  | sum | product | connective =>
    simp only [Reading.map, placing, draft]
    exact tagged_applied hbare (taggedAll_elementsOf hr)
  | difference x y | quotient x y | power x y | relation _ x y =>
    simp only [Reading.map, placing, draft]
    exact tagged_applied hbare (taggedAll_elementsOf hr)
  | negation x | squareRoot x | not x | elementary _ x =>
    simp only [Reading.map, placing, draft]
    exact tagged_applied hbare (taggedAll_elementsOf hr)
  | lambda | piecewise | qualifier =>
    simp only [Reading.map, placing, draft]
    exact (taggedAll_elementsOf hr).around fits_presentation
  | integer | rational | exponential =>
    simp only [Reading.map, placing, draft]
    exact tagged_cn _ _ _
  | avogadro | time =>
    simp only [Reading.map, placing, draft]
    exact tagged_symbolElement fits_presentation _ _
  | constant => exact tagged_empty fits_presentation
  | identifier name => exact tagged_text fits_presentation name
  | unknown => exact .error
  | real value units =>
    simp only [Reading.map, placing, draft]
    split_ifs
    · exact tagged_empty fits_presentation
    · exact tagged_cn _ _ _
  | infinity negative =>
    cases negative with
    | false => exact tagged_empty fits_presentation
    | true => exact tagged_applied hbare (hbare.followedBy .nil)
  | call name =>
    simp only [Reading.map, placing, draft]
    exact tagged_applied (tagged_text (fits_bare none) name) (taggedAll_elementsOf hr)
  | delay =>
    simp only [Reading.map, placing, draft]
    exact tagged_applied (tagged_symbolElement (fits_bare none) _ _) (taggedAll_elementsOf hr)
  | root degree radicand =>
    have hdegree : WellTagged degree := hr degree (by simp [Reading.operands])
    have hradicand : ∀ x ∈ [radicand], WellTagged x := fun x hx =>
      hr x (List.mem_cons_of_mem _ hx)
    simp only [Reading.map, placing, draft]
    split_ifs
    · exact .error
    · exact tagged_applied hbare
        ((tagged_qualification _ hdegree).followedBy (taggedAll_elementsOf hradicand))
  | logarithm base x =>
    have hbase : WellTagged base := hr base (by simp [Reading.operands])
    have hx : ∀ y ∈ [x], WellTagged y := fun y hy => hr y (List.mem_cons_of_mem _ hy)
    have htree : (base.operand placer).tree = base := rfl
    have htree' : (base.operand drafter).tree = base := rfl
    simp only [Reading.map, placing, draft]
    rw [htree, htree']
    refine tagged_applied hbare ?_
    split_ifs
    · exact taggedAll_elementsOf hx
    · exact (tagged_qualification _ hbase).followedBy (taggedAll_elementsOf hx)

theorem wellTagged (t : Tree) : WellTagged t := by
  induction t using Tree.reading_induction with
  | step t ih =>
    rw [WellTagged, Tree.element, Tree.places]
    cases hr : t.reading? with
    | error fault =>
      rw [Tree.elementWith_of_error _ hr]
      exact .error
    | ok r =>
      rw [Tree.elementWith_of_ok _ hr, Tree.render_of_ok _ hr]
      exact tagged_draft t (ih r hr)

/-- Where tags carry what is set on the nodes that open them, they are right for all nodes just if
nothing else is set on a qualifier that shares a tag. -/
theorem forall₂_bears_iff {tags : List Tag} (h : List.Forall₂ Place.Fits ps tags) :
    List.Forall₂ Place.Bears ps tags ↔ ∀ p ∈ ps, ∀ q ∈ p.qualifier, presentation q = p.written := by
  induction h with
  | nil => simp
  | cons hp _ ih => rw [List.forall₂_cons, List.forall_mem_cons, hp.bears_iff, ih]

/-- A tree that is written on a blank sheet has the tags that it is to have.  Each carries what is set
on the node that opens it, and so all are right but those of qualifiers that a root or a logarithm
takes apart: nothing is written of what is set on these. -/
theorem attributes_on_own_tag_iff {t : Tree} {s : Sheet}
    (h : (writeTree t).run .blank = (.ok (), s)) :
    List.Forall₂ Place.Fits t.places s.tags ∧
    (List.Forall₂ Place.Bears t.places s.tags ↔
      ∀ p ∈ t.places, ∀ q ∈ p.qualifier, presentation q = p.written) := by
  obtain ⟨e, he, rfl⟩ := ((writes_writeTree t).run_eq_ok_iff rfl).1 h
  have hfits : List.Forall₂ Place.Fits t.places (Sheet.tags (Sheet.blank.extend (e.lines 0) 0 [])) := by
    have hlines : (Sheet.blank.extend (e.lines 0) 0 []).lines.toList = e.lines 0 := by
      simp [Sheet.extend, Sheet.blank]
    rw [Sheet.tags, hlines]
    exact wellTagged t e he 0
  exact ⟨hfits, forall₂_bears_iff hfits⟩

/-- A cube root, itself with an id, of a name with a class.  What is set on the content of its degree
is written as well. -/
theorem attributes_on_own_tag_cubeRoot :
    let three : Tree := .leaf { Head.integerLiteral 3 with id := some "i2", style := some "bold" }
    let degree : Tree := .node (.ofKind (.qualifier .degree)) [three]
    let x : Tree := .leaf { Head.identifier "x" with styleClass := some "c" }
    let t : Tree := .node { Head.ofKind .root with id := some "i1" } [degree, x]
    let tags : List Tag := [⟨"apply", [⟨"id", "i1"⟩]⟩, ⟨"root", []⟩, ⟨"degree", []⟩,
      ⟨"cn", [⟨"id", "i2"⟩, ⟨"style", "bold"⟩, ⟨"type", "integer"⟩]⟩, ⟨"ci", [⟨"class", "c"⟩]⟩]
    ∃ s : Sheet, (writeTree t).run .blank = (.ok (), s) ∧ s.tags = tags ∧
      List.Forall₂ Place.Fits t.places tags ∧ List.Forall₂ Place.Bears t.places tags := by
  intro three degree x t tags
  let s : Sheet := ((writeTree t).run .blank).2
  have hrun : (writeTree t).run .blank = (.ok (), s) := rfl
  have htags : s.tags = tags := by decide +kernel
  have hlone : ∀ p ∈ t.places, ∀ q ∈ p.qualifier, presentation q = p.written := by decide +kernel
  obtain ⟨hfits, hbears⟩ := attributes_on_own_tag_iff hrun
  rw [htags] at hfits hbears
  exact ⟨s, hrun, htags, hfits, hbears.2 hlone⟩

/-- What is set on the degree of a root is not written, though a tag is written for the degree. -/
theorem degree_loses_id :
    let degree : Tree :=
      .node { Head.ofKind (.qualifier .degree) with id := some "d1" } [Tree.leaf (.integerLiteral 3)]
    let t : Tree := .node (.ofKind .root) [degree, Tree.leaf (.identifier "x")]
    ∃ s : Sheet, (writeTree t).run .blank = (.ok (), s) ∧
      s.text 0 = "<apply><root/><degree><cn type=\"integer\"> 3 </cn></degree><ci>x</ci></apply>" ∧
      ¬ List.Forall₂ Place.Bears t.places s.tags := by
  intro degree t
  let s : Sheet := ((writeTree t).run .blank).2
  refine ⟨s, rfl, by decide +kernel, fun h => ?_⟩
  have htags : s.tags = [⟨"apply", []⟩, ⟨"root", []⟩, ⟨"degree", []⟩,
      ⟨"cn", [⟨"type", "integer"⟩]⟩, ⟨"ci", []⟩] := by decide +kernel
  have hplaces : t.places = [⟨"apply", t.head, none⟩, ⟨"root", none, none⟩, ⟨"degree", none, degree.head⟩,
      ⟨"cn", Head.integerLiteral 3, none⟩, ⟨"ci", Head.identifier "x", none⟩] := by decide +kernel
  rw [htags, hplaces] at h
  simp only [List.forall₂_cons] at h
  obtain ⟨-, -, hdegree, -⟩ := h
  exact absurd (hdegree.of_qualifier degree.head rfl) (by decide +kernel)

end MathML

end MathTree

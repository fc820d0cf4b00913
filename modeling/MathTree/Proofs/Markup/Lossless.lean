import MathTree.Proofs.Action.Kinds
import MathTree.Proofs.Markup.Decode

/-!
# Markup loses nothing

A strict tree that hides no child is told by its markup, roots, logarithms and reals apart.  The
element that such a tree comes to tells the portrait of the tree, by one lemma for each shape of
element (`portrait_applied`, `portrait_around`, …), and the element is read back from its text.  So
`decode` undoes the writing, and trees with the same markup have the same portrait
(`markup_lossless`).
-/

namespace MathTree

open MathTree.Number MathTree.Markup MathML

/-- The kinds of which markup tells all that is in a portrait.  A root and a logarithm may leave out
their first operand, reals are left aside, and what is unknown has no markup. -/
def Kind.isTold : Kind → Bool
  | .root | .log | .real | .exponential | .unknown => false
  | _ => true

/-- Whether markup tells the top of a tree. -/
structure Tree.IsTelling (t : Tree) : Prop where
  sound : t.IsSound
  strict : t.head.strict
  shown : t.shown = t.children
  told : t.kind.isTold

/-! ### Values of strict nodes -/

namespace Head

variable {α : Type} {h : Head} {field : Field} {slot : Option (Option α)} {default value : α}

theorem eq_of_demand (hs : h.strict) (hd : h.demand field slot default = .ok value) :
    slot = some (some value) := by
  unfold demand at hd
  split at hd
  · cases hd
  · cases hd
    rfl
  · rw [if_pos hs] at hd
    cases hd

theorem name?_of_name {name : String} (hs : h.strict) (hn : h.name = .ok name) :
    h.name? = some name := by
  obtain ⟨symbol, hsymbol, hname⟩ := Option.map_eq_some_iff.1 (eq_of_demand hs hn)
  rw [name?, hsymbol, Option.bind_some, hname]

/-- A `minus` is a difference or a negation. -/
theorem Sound.form_of_minus (hs : h.Sound) (hk : h.kind = .minus) (hunary : h.form ≠ .unary) :
    h.form = .ofKind .minus := by
  have hforms (form : Form) : form.allows .minus → form ≠ .unary → form = .ofKind .minus := by
    cases form <;> decide
  exact hforms h.form (hk ▸ hs) hunary

theorem Sound.form_eq_ofOperands {kind : Kind} (hs : h.Sound) (hk : h.kind = kind)
    (hminus : kind ≠ .minus) (n : Nat) : h.form = .ofOperands kind n := by
  subst hk
  rw [hs.form_eq hminus, Form.ofOperands, if_neg fun hkind => hminus hkind.1]

end Head

namespace Markup

/-! ### Labels -/

/-- Whether a tag presents itself as a node does. -/
structure Label.Presents (l : Label) (h : Head) : Prop where
  id : lookup l.attributes "id" = h.id
  style : lookup l.attributes "style" = h.style
  styleClass : lookup l.attributes "class" = h.styleClass

variable {l : Label} {h : Head} {tag text : String} {attributes : List Attribute} {n : Nat}

theorem Label.Presents.traits (hl : l.Presents h) (hform : h.form = .ofOperands h.kind n) :
    l.traits h.kind h.content n = h.traits := by
  rw [Label.traits, Head.traits, hl.id, hl.style, hl.styleClass, hform]

theorem lookup_presentation (h : Head) (name : String) :
    lookup (presentation h) name
      = ((if "id" = name then h.id else none).or (if "style" = name then h.style else none)).or
        (if "class" = name then h.styleClass else none) := by
  simp only [presentation, lookup_append, lookup_optional]

/-- Attributes behind those for presentation leave these to be seen. -/
theorem Label.presents_append {others : List Attribute} {runs : List String}
    (hothers : ∀ name ∈ ["id", "style", "class"], lookup others name = none) :
    Label.Presents ⟨tag, presentation h ++ others, runs⟩ h := by
  constructor <;> simp [lookup_append, lookup_presentation, hothers]

theorem Label.presents_presentation (tag : String) (h : Head) (runs : List String) :
    Label.Presents ⟨tag, presentation h, runs⟩ h := by
  constructor <;> simp [lookup_presentation]

/-- A strict node that is told by a text has it for a name. -/
theorem content_of_name {name : String} (hstrict : h.strict) (hnamed : h.kind.isNamed)
    (hname : h.name = .ok name) (hruns : String.join l.runs = name) :
    l.content h.kind = h.content := by
  rw [Label.content_of_isNamed l hnamed, Head.content_of_isNamed hnamed, hruns,
    Head.name?_of_name hstrict hname]

theorem kind_presentation (tag : String) (h : Head) (runs : List String) :
    Label.kind ⟨tag, presentation h, runs⟩ = .ofToken tag := by
  simp [Label.kind, lookup_presentation]

theorem kind_symbol (url : String) (runs : List String)
    (htype : lookup attributes "type" = none) (hurl : lookup attributes "definitionURL" = none) :
    Label.kind ⟨tag, attributes ++ [⟨"encoding", "text"⟩, ⟨"definitionURL", url⟩], runs⟩
      = .ofToken url := by
  simp [Label.kind, lookup_append, lookup_cons, lookup_nil, htype, hurl]

/-- A text in an element is the run of text in it; without a character there is no run. -/
theorem xml_text (tag : String) (attributes : List Attribute) (text : String) :
    ∃ runs, (Element.text tag attributes text).xml = .node ⟨tag, attributes, runs⟩ [] ∧
      String.join runs = text := by
  by_cases hempty : (Text.escape text).toList = []
  · refine ⟨[], ?_, ?_⟩
    · rw [Element.xml, Xml.say, if_pos hempty]
    · rw [← Text.unescape_escape text, hempty]
      rfl
  · refine ⟨[text], ?_, ?_⟩
    · rw [Element.xml, Xml.say, if_neg hempty, Text.unescape_escape]
      rfl
    · simp [String.join]

theorem unescape_of_not_mem {signs : List Char} (hsigns : '&' ∉ signs) :
    Text.unescape signs = signs := by
  induction signs with
  | nil => rfl
  | cons c signs ih =>
    rw [Text.unescape_cons (List.ne_of_not_mem_cons hsigns).symm,
      ih (List.not_mem_of_not_mem_cons hsigns)]

/-- The parts of a number are runs of text, with blanks around them. -/
theorem label_number {x : Xml} {part : String} {parts : List String}
    (h : ∀ p ∈ part :: parts, IsPlain p) : (x.number part parts).label
      = { x.label with runs := x.label.runs ++ (part :: parts).map fun p => " " ++ p ++ " " } := by
  have hsay (x : Xml) {p : String} (hp : IsPlain p) : (x.say (" " ++ p ++ " ").toList).label
      = { x.label with runs := x.label.runs ++ [" " ++ p ++ " "] } := by
    have hamp : '&' ∉ (" " ++ p ++ " ").toList := by
      have hpart : '&' ∉ p.toList := fun hmem => by cases hp _ hmem
      simp [hpart]
    have hne : (" " ++ p ++ " ").toList ≠ [] := by simp
    cases x
    rw [Xml.say, if_neg hne, unescape_of_not_mem hamp, String.ofList_toList]
    rfl
  have hadd (x y : Xml) : (x.add y).label = x.label := by
    cases x
    rfl
  induction parts generalizing part x with
  | nil => exact hsay x (h part List.mem_cons_self)
  | cons next parts ih =>
    rw [Xml.number, ih fun p hp => h p (List.mem_cons_of_mem _ hp), hadd,
      hsay x (h part List.mem_cons_self)]
    simp

end Markup

/-! ### Elements -/

namespace Markup.Xml

theorem portrait_eq (x : Xml) :
    x.portrait = paint x.label (x.children.map fun u => (u, u.portrait)) := by
  cases x
  exact Rose.para_node ..

/-- An application tells its operator and its operands. -/
theorem portrait_apply (attributes : List Attribute) (operator : Xml) (operands : List Xml) :
    portrait (.node ⟨"apply", attributes, []⟩ (operator :: operands))
      = .node ((Label.mk "apply" attributes []).traits operator.label.operatorKind
          (operator.label.content operator.label.operatorKind) operands.length)
        (operands.map portrait) := by
  rw [portrait_eq]
  simp [paint, Rose.label, Rose.children, Function.comp_def]

/-- Any other element tells its own kind. -/
theorem portrait_of_tag_ne {x : Xml} (htag : x.label.tag ≠ "apply") :
    x.portrait = .node (x.label.traits x.label.kind (x.label.content x.label.kind) 0)
      (if x.label.kind.isNumber then [] else x.children.map portrait) := by
  rw [portrait_eq]
  unfold paint
  rw [if_neg htag, List.map_map]
  rfl

end Markup.Xml

namespace Tree

/-- Whether the element that a tree comes to tells the tree. -/
def Tells (t : Tree) : Prop := ∀ e, t.element = .ok e → e.xml.portrait = t.portrait

variable {h : Head} {xs : List Tree} {e operator : Element} {es : List Element} {tag : String}

theorem portrait_elementsOf (hxs : ∀ x ∈ xs, x.Tells)
    (hes : elementsOf (xs.map (operand drafter)) = .ok es) :
    (xmlAll es).map Xml.portrait = xs.map portrait := by
  induction xs generalizing es with
  | nil =>
    cases hes
    rfl
  | cons x xs ih =>
    have hcons : elementsOf ((x :: xs).map (operand drafter))
        = followedBy x.element (elementsOf (xs.map (operand drafter))) := rfl
    rw [hcons] at hes
    obtain ⟨e, es', he, hes', rfl⟩ := followedBy_eq_ok_iff.1 hes
    have htail := ih (fun y hy => hxs y (List.mem_cons_of_mem _ hy)) hes'
    rw [xmlAll, List.map_cons, htail, hxs x List.mem_cons_self e he]
    rfl

/-- An application tells a node if its operator tells the kind of the node and what it carries. -/
theorem portrait_applied (hxs : ∀ x ∈ xs, x.Tells) (hform : h.form = .ofOperands h.kind xs.length)
    (hkind : operator.xml.label.operatorKind = h.kind)
    (hcontent : operator.xml.label.content h.kind = h.content)
    (he : applied (presentation h) operator (elementsOf (xs.map (operand drafter))) = .ok e) :
    e.xml.portrait = portrait (.node h xs) := by
  obtain ⟨all, hall, rfl⟩ := around_eq_ok_iff.1 he
  obtain ⟨first, es, hfirst, hes, rfl⟩ := followedBy_eq_ok_iff.1 hall
  cases hfirst
  have hoperands := portrait_elementsOf hxs hes
  have hlength : (xmlAll es).length = xs.length := by
    simpa using congrArg List.length hoperands
  rw [Element.xml, xmlAll, Xml.portrait_apply, hkind, hcontent, hlength,
    (Label.presents_presentation _ h _).traits hform, hoperands, portrait_node]

theorem portrait_operation {kind : Kind} (hxs : ∀ x ∈ xs, x.Tells) (hk : h.kind = kind)
    (hform : h.form = .ofOperands kind xs.length) (hbare : kind.isBare)
    (htag : kind.elementName = some tag)
    (he : operation (presentation h) tag (xs.map (operand drafter)) = .ok e) :
    e.xml.portrait = portrait (.node h xs) := by
  subst hk
  obtain ⟨htoken, hne, -⟩ := Kind.ofToken_elementName hbare htag
  have hkind : (Element.empty tag []).xml.label.operatorKind = h.kind := by
    rw [Element.xml, Label.operatorKind, Rose.label, if_neg hne]
    exact htoken
  refine portrait_applied hxs hform hkind ?_ he
  rw [Label.content_of_isBare _ hbare, Head.content_of_isBare hbare]

/-- An element that is no application tells a node if it has the kind of the node and carries the
same. -/
theorem portrait_element {x : Xml} {ts : List Tree} (hs : h.Sound) (hminus : h.kind ≠ .minus)
    (hpresents : x.label.Presents h) (htag : x.label.tag ≠ "apply") (hkind : x.label.kind = h.kind)
    (hcontent : x.label.content h.kind = h.content)
    (hinside : (if h.kind.isNumber then [] else x.children.map Xml.portrait) = ts.map portrait) :
    x.portrait = portrait (.node h ts) := by
  rw [Xml.portrait_of_tag_ne htag, hkind, hcontent, hinside, portrait_node,
    hpresents.traits (hs.form_eq_ofOperands rfl hminus 0)]

theorem portrait_bare {inside : List Xml} {kind : Kind} (hs : h.Sound) (hk : h.kind = kind)
    (hminus : kind ≠ .minus) (hbare : kind.isBare) (htag : kind.elementName = some tag)
    (hinside : inside.map Xml.portrait = xs.map portrait) :
    Xml.portrait (.node ⟨tag, presentation h, []⟩ inside) = portrait (.node h xs) := by
  subst hk
  obtain ⟨htoken, -, happly⟩ := Kind.ofToken_elementName hbare htag
  refine portrait_element hs hminus (Label.presents_presentation tag h []) happly ?_ ?_ ?_
  · exact (kind_presentation tag h []).trans htoken
  · rw [Label.content_of_isBare _ hbare, Head.content_of_isBare hbare]
  · rw [Kind.isNumber_of_isBare hbare]
    exact hinside

/-- An element around operands tells a node if its tag tells the kind of the node. -/
theorem portrait_around {kind : Kind} (hxs : ∀ x ∈ xs, x.Tells) (hs : h.Sound) (hk : h.kind = kind)
    (hminus : kind ≠ .minus) (hbare : kind.isBare) (htag : kind.elementName = some tag)
    (he : around tag (presentation h) (elementsOf (xs.map (operand drafter))) = .ok e) :
    e.xml.portrait = portrait (.node h xs) := by
  obtain ⟨es, hes, rfl⟩ := around_eq_ok_iff.1 he
  exact portrait_bare hs hk hminus hbare htag (portrait_elementsOf hxs hes)

/-- A text in an element tells a node that has it for a name. -/
theorem portrait_text {kind : Kind} {attributes : List Attribute} {name : String} (hs : h.Sound)
    (hstrict : h.strict) (hk : h.kind = kind) (hnamed : kind.isNamed) (hname : h.name = .ok name)
    (htag : tag ≠ "apply") (hpresents : ∀ runs, Label.Presents ⟨tag, attributes, runs⟩ h)
    (hkind : ∀ runs, Label.kind ⟨tag, attributes, runs⟩ = kind) :
    (Element.text tag attributes name).xml.portrait = portrait (.node h []) := by
  subst hk
  obtain ⟨runs, hxml, hruns⟩ := xml_text tag attributes name
  have hminus : h.kind ≠ .minus := by
    intro hminus
    rw [hminus] at hnamed
    cases hnamed
  rw [hxml]
  refine portrait_element hs hminus (hpresents runs) htag (hkind runs) ?_ ?_
  · exact content_of_name hstrict hnamed hname hruns
  · rw [Kind.isNumber_of_isNamed hnamed]
    rfl

/-- A symbol with a fixed definition tells a node of the kind that is so defined. -/
theorem portrait_symbol {kind : Kind} {url name : String} (hs : h.Sound) (hstrict : h.strict)
    (hk : h.kind = kind) (hnamed : kind.isNamed) (hname : h.name = .ok name)
    (hurl : Kind.ofToken url = kind) :
    (symbolElement (presentation h) url name).xml.portrait = portrait (.node h []) := by
  refine portrait_text hs hstrict hk hnamed hname (by decide) (fun _ => ?_) fun runs => ?_
  · exact Label.presents_append (by simp [lookup])
  · rw [← hurl]
    exact kind_symbol url runs (by simp [lookup_presentation]) (by simp [lookup_presentation])

/-- A number of a type tells a node that has its parts and its units. -/
theorem portrait_cn {kind : Kind} {type : String} {units : Option String} {part : String}
    {parts : List String} (hs : h.Sound) (hk : h.kind = kind) (hminus : kind ≠ .minus)
    (hnumber : kind.isNumber) (htype : Kind.ofToken type = kind)
    (hparts : ∀ p ∈ part :: parts, IsPlain p)
    (hcontent : ∀ l : Label, l.runs = (part :: parts).map (fun p => " " ++ p ++ " ") →
      lookup l.attributes "sbml:units" = units → l.content kind = h.content) :
    (cn (presentation h) (some type) units (part :: parts)).xml.portrait
      = portrait (.node h []) := by
  subst hk
  let others := [⟨"type", type⟩] ++ (units.map (Attribute.mk "sbml:units")).toList
  have hothers (name : String) : lookup others name
      = (if "type" = name then some type else none).or
        (if "sbml:units" = name then units else none) := by
    rw [lookup_append, lookup_optional, lookup_cons, lookup_nil]
  have hlabel : (cn (presentation h) (some type) units (part :: parts)).xml.label
      = ⟨"cn", presentation h ++ others, (part :: parts).map fun p => " " ++ p ++ " "⟩ :=
    label_number hparts
  have htag : "cn" ≠ "apply" := by decide
  refine portrait_element hs hminus ?_ ?_ ?_ ?_ ?_
  · rw [hlabel]
    exact Label.presents_append (by simp [hothers])
  · rw [hlabel]
    exact htag
  · rw [hlabel, ← htype]
    simp [Label.kind, lookup_append, lookup_presentation, hothers]
  · rw [hlabel]
    exact hcontent _ rfl (by simp [lookup_append, lookup_presentation, hothers])
  · rw [if_pos hnumber]
    rfl

/-! ### Nodes -/

namespace IsTelling

variable {ts : List Tree}

/-- A strict node that hides no child has not more than fit. -/
theorem length_le (ht : IsTelling (.node h ts)) {n : Nat} (hcapacity : h.capacity = some n) :
    ts.length ≤ n := by
  have hstrict : h.strict := ht.strict
  have hshown : ts.take (h.shown ts.length) = ts := ht.shown
  rw [Head.shown, hcapacity] at hshown
  dsimp only at hshown
  rw [if_pos hstrict] at hshown
  have hlength := congrArg List.length hshown
  rw [List.length_take] at hlength
  omega

theorem eq_nil {form : Form} (ht : IsTelling (.node h ts)) (hform : h.form = form)
    (hleaf : form.isLeaf) : ts = [] := by
  subst hform
  have hlength := ht.length_le (Form.capacity_of_isLeaf hleaf h.kind)
  exact List.eq_nil_of_length_eq_zero (by omega)

/-- The operand of a unary node is its only child. -/
theorem eq_of_one (ht : IsTelling (.node h ts)) (hform : h.form = .unary) {x : Tree}
    (hone : h.one ts = .ok x) : ts = [x] := by
  obtain ⟨rest, rfl⟩ := Head.one_eq_ok hone
  have hcapacity : h.capacity = some 1 := by
    rw [Head.capacity, hform]
    rfl
  have hlength := ht.length_le hcapacity
  rw [List.length_cons] at hlength
  rw [List.eq_nil_of_length_eq_zero (by omega : rest.length = 0)]

end IsTelling

/-- A leaf is told by what is drafted of it. -/
theorem portrait_leaf {α : Type} {isTwo : α → Bool} {slots : List (Slot α)} {r : Reading α}
    {f : α → Draft} (ht : IsTelling (.node h [])) (hleaf : (Form.ofKind h.kind).isLeaf)
    (hr : h.reading? isTwo slots = .ok r) (he : draft (r.map f) (presentation h) = .ok e) :
    e.xml.portrait = portrait (.node h []) := by
  have hs : h.Sound := ht.sound
  have hstrict : h.strict := ht.strict
  have htold : h.kind.isTold := ht.told
  cases hk : h.kind with
  | constant c =>
    simp only [Head.reading?, hk] at hr
    cases hr
    cases he
    exact portrait_bare hs hk Kind.noConfusion rfl rfl rfl
  | integer =>
    simp only [Head.reading?, hk] at hr
    obtain ⟨value, hvalue, hpure⟩ := exists_of_bind_eq_ok hr
    cases hpure
    cases he
    have htype : Kind.ofToken "integer" = .integer := by decide +kernel
    have hstored := Head.eq_of_demand hstrict hvalue
    refine portrait_cn hs hk Kind.noConfusion rfl htype (by simp [isPlain_intText]) ?_
    intro l hruns hunits
    simp [Head.content, Label.content, hk, hstored, hunits, Label.number?, hruns,
      wholeNumber_intText]
  | rational =>
    simp only [Head.reading?, hk] at hr
    obtain ⟨n, hn, hrest⟩ := exists_of_bind_eq_ok hr
    obtain ⟨d, hd, hpure⟩ := exists_of_bind_eq_ok hrest
    cases hpure
    cases he
    have htype : Kind.ofToken "rational" = .rational := by decide +kernel
    have hnumerator := Head.eq_of_demand hstrict hn
    have hdenominator := Head.eq_of_demand hstrict hd
    refine portrait_cn hs hk Kind.noConfusion rfl htype (by simp [isPlain_intText]) ?_
    intro l hruns hunits
    simp [Head.content, Label.content, hk, hnumerator, hdenominator, hunits, Label.number?, hruns,
      wholeNumber_intText]
  | name =>
    simp only [Head.reading?, hk] at hr
    obtain ⟨name, hname, rfl⟩ := exists_of_map_eq_ok hr
    cases he
    have htoken : Kind.ofToken "ci" = .name := by decide +kernel
    exact portrait_text hs hstrict hk rfl hname (by decide) (Label.presents_presentation "ci" h)
      fun runs => (kind_presentation "ci" h runs).trans htoken
  | time | avogadro =>
    simp only [Head.reading?, hk] at hr
    obtain ⟨name, hname, rfl⟩ := exists_of_map_eq_ok hr
    cases he
    exact portrait_symbol hs hstrict hk rfl hname (by decide +kernel)
  | real | exponential | unknown =>
    rw [hk] at htold
    cases htold
  | _ =>
    rw [hk] at hleaf
    cases hleaf

/-- A node is told by what is drafted of it if its children are told. -/
theorem portrait_draft {ts : List Tree} {isTwo : Tree → Bool} {r : Reading Tree}
    (ht : IsTelling (.node h ts)) (hts : ∀ t ∈ ts, t.Tells)
    (hr : h.reading? isTwo (ts.map slot) = .ok r)
    (he : draft (r.map (operand drafter)) (presentation h) = .ok e) :
    e.xml.portrait = portrait (.node h ts) := by
  have hs : h.Sound := ht.sound
  have hstrict : h.strict := ht.strict
  have htold : h.kind.isTold := ht.told
  have hitself : (ts.map slot).map Slot.itself = ts := by
    have hshown : shown (.node h ts) = ts := ht.shown
    rw [← hshown]
    exact itself_shown _
  cases hk : h.kind with
  | plus | times | connective =>
    simp only [Head.reading?, hk, hitself] at hr
    cases hr
    simp only [Reading.map, draft] at he
    exact portrait_operation hts hk (hs.form_eq_ofOperands hk Kind.noConfusion _) rfl rfl he
  | divide | power | relation =>
    simp only [Head.reading?, hk, hitself] at hr
    obtain ⟨⟨x, y⟩, htwo, rfl⟩ := exists_of_map_eq_ok hr
    cases Head.two_eq_ok htwo
    simp only [Reading.map, draft] at he
    exact portrait_operation hts hk (hs.form_eq_ofOperands hk Kind.noConfusion _) rfl rfl he
  | not | elementary =>
    simp only [Head.reading?, hk, hitself] at hr
    obtain ⟨x, hone, rfl⟩ := exists_of_map_eq_ok hr
    obtain rfl := ht.eq_of_one (hs.form_eq_ofOperands hk Kind.noConfusion 1) hone
    simp only [Reading.map, draft] at he
    exact portrait_operation hts hk (hs.form_eq_ofOperands hk Kind.noConfusion _) rfl rfl he
  | minus =>
    simp only [Head.reading?, hk, hitself] at hr
    split_ifs at hr with hunary
    · obtain ⟨x, hone, rfl⟩ := exists_of_map_eq_ok hr
      obtain rfl := ht.eq_of_one hunary hone
      simp only [Reading.map, draft] at he
      exact portrait_operation hts hk hunary rfl rfl he
    · obtain ⟨⟨x, y⟩, htwo, rfl⟩ := exists_of_map_eq_ok hr
      cases Head.two_eq_ok htwo
      simp only [Reading.map, draft] at he
      exact portrait_operation hts hk (hs.form_of_minus hk hunary) rfl rfl he
  | delay =>
    simp only [Head.reading?, hk, hitself] at hr
    obtain ⟨⟨x, y⟩, htwo, hrest⟩ := exists_of_bind_eq_ok hr
    obtain ⟨name, hname, hpure⟩ := exists_of_bind_eq_ok hrest
    cases hpure
    cases Head.two_eq_ok htwo
    simp only [Reading.map, draft] at he
    have hurl : Kind.ofToken Kind.delayUrl = .delay := by decide +kernel
    obtain ⟨runs, hxml, hruns⟩ := xml_text "csymbol" ([] ++ _) name
    refine portrait_applied hts (hk ▸ hs.form_eq_ofOperands hk Kind.noConfusion _) ?_ ?_ he
    · rw [symbolElement, hxml, Label.operatorKind, hk, ← hurl]
      exact kind_symbol _ _ lookup_nil lookup_nil
    · rw [symbolElement, hxml]
      exact content_of_name hstrict (by rw [hk]; rfl) hname hruns
  | call =>
    simp only [Head.reading?, hk, hitself] at hr
    obtain ⟨name, hname, rfl⟩ := exists_of_map_eq_ok hr
    simp only [Reading.map, draft] at he
    obtain ⟨runs, hxml, hruns⟩ := xml_text "ci" [] name
    refine portrait_applied hts (hk ▸ hs.form_eq_ofOperands hk Kind.noConfusion _) ?_ ?_ he
    · rw [hxml, hk]
      rfl
    · rw [hxml]
      exact content_of_name hstrict (by rw [hk]; rfl) hname hruns
  | lambda | piecewise =>
    simp only [Head.reading?, hk, hitself] at hr
    cases hr
    simp only [Reading.map, draft] at he
    exact portrait_around hts hs hk Kind.noConfusion rfl rfl he
  | qualifier =>
    simp only [Head.reading?, hk, hitself] at hr
    obtain ⟨xs, hfull, rfl⟩ := exists_of_map_eq_ok hr
    obtain ⟨rfl, -⟩ := Head.full_eq_ok hfull
    simp only [Reading.map, draft] at he
    exact portrait_around hts hs hk Kind.noConfusion rfl rfl he
  | root | log =>
    rw [hk] at htold
    cases htold
  | constant | integer | rational | name | time | avogadro | real | exponential | unknown =>
    have hleaf : (Form.ofKind h.kind).isLeaf := by
      rw [hk]
      rfl
    obtain rfl := ht.eq_nil (hs.form_eq_ofOperands hk Kind.noConfusion 0) rfl
    exact portrait_leaf ht hleaf hr he

/-- A tree is told by its element. -/
theorem tells {t : Tree} (ht : t.All IsTelling) : t.Tells := by
  induction ht with
  | @intro t top below ih =>
    intro e he
    rw [top.shown] at ih
    cases hr : t.reading? with
    | error fault =>
      rw [element, elementWith_of_error _ hr] at he
      cases he
    | ok r =>
      rw [element, elementWith_of_ok _ hr] at he
      rw [reading?, top.shown] at hr
      cases t
      exact portrait_draft top ih hr he

/-- Markup loses nothing: it can be read back, so that trees with the same markup have the same
portrait.  Every tree that can be read off a forest is sound. -/
theorem markup_lossless :
    (∀ f : Forest, f.Reachable → ∀ n, (f.tree n).All IsSound) ∧
    ∀ t : Tree, t.All IsTelling → ∀ text, t.mathElement = .ok text →
      decode text = t.portrait ∧
      ∀ t' : Tree, t'.All IsTelling → t'.mathElement = .ok text → t'.portrait = t.portrait := by
  have hdecode (t : Tree) (ht : t.All IsTelling) (text : String) (h : t.mathElement = .ok text) :
      decode text = t.portrait := by
    obtain ⟨e, he, rfl⟩ := mathElement_eq_ok_iff.1 h
    rw [decode, Xml.read_textAt (proper_of_element he)]
    exact tells ht e he
  refine ⟨fun f hf n => hf.all_isSound n, fun t ht text h => ⟨hdecode t ht text h, ?_⟩⟩
  intro t' ht' h'
  rw [← hdecode t ht text h, hdecode t' ht' text h']

/-- Two calls of a function whose name has signs of markup.  They differ in the definition of an
identifier, which markup does not tell. -/
theorem markup_lossless_call :
    let negation (x : Head) : Tree := .node (.blank .unary .minus) [leaf x]
    let number : Tree := leaf { Head.integerLiteral (-3) with
      payload := .integer (some (-3)) (some "m"), styleClass := some "" }
    let call (x : Head) : Tree :=
      .node { Head.call "f<" with id := some "\"&" } [negation x, number]
    let t : Tree := call (.identifier "x")
    let t' : Tree := call { Head.identifier "x" with
      payload := .identifier { Symbol.named "x" with definitionUrl := some "u" } }
    let text := "<apply id=\"&quot;&amp;\"><ci>f&lt;</ci><apply><minus/><ci>x</ci></apply>" ++
      "<cn class=\"\" type=\"integer\" sbml:units=\"m\"> -3 </cn></apply>"
    (t.All IsTelling ∧ t.mathElement = .ok text ∧ t'.All IsTelling ∧ t'.mathElement = .ok text) ∧
      decode text = t.portrait ∧ t'.portrait = t.portrait := by
  intro negation number call t t' text
  have hleaf {h : Head} (hh : IsTelling (leaf h)) : (leaf h).All IsTelling := .node hh nofun
  have hnumber : number.All IsTelling := hleaf ⟨rfl, rfl, rfl, rfl⟩
  have hcall {x : Head} (hx : IsTelling (leaf x)) : (call x).All IsTelling :=
    .node ⟨rfl, rfl, rfl, rfl⟩ fun u hu => by
      rcases List.mem_cons.1 hu with rfl | hu
      · refine .node ⟨rfl, rfl, rfl, rfl⟩ fun v hv => ?_
        cases List.mem_singleton.1 hv
        exact hleaf hx
      · cases List.mem_singleton.1 hu
        exact hnumber
  have ht : t.All IsTelling := hcall ⟨rfl, rfl, rfl, rfl⟩
  have ht' : t'.All IsTelling := hcall ⟨rfl, rfl, rfl, rfl⟩
  have htext : t.mathElement = .ok text := by decide
  have htext' : t'.mathElement = .ok text := by decide
  obtain ⟨hdecode, hsame⟩ := markup_lossless.2 t ht text htext
  exact ⟨⟨ht, htext, ht', htext'⟩, hdecode, hsame t' ht' htext'⟩

end Tree

end MathTree

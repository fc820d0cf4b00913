import MathTree.Proofs.Markup.Attributes
import MathTree.Proofs.Markup.Proper

/-!
# Units and their namespace

Units are written as attributes with a prefix, and whoever reads them has to know what the prefix stands
for.  Whether a document declares it is decided before anything of the tree is written, by whether the
tree shows a number with units (`Tree.usesUnits_iff`).  All that is written later of the tree comes of
nodes that it shows, so that every prefix is declared (`units_declared`), on every sheet to which
writing can lead (`Reached`): what waits there never has units in it.
-/

namespace MathTree

open MathTree.Number MathTree.Markup MathML

/-! ### The units of a tree -/

namespace Tree

theorem usesUnits_eq (t : Tree) : t.usesUnits = (t.head.units?.isSome || t.shown.any usesUnits) := by
  have hnode : t.usesUnits = (t.head.units?.isSome || (t.shown.map usesUnits).any id) := by
    cases t
    exact foldShown_node _ _ _
  rw [hnode, List.any_map]
  rfl

theorem usesUnits_iff (t : Tree) : t.usesUnits ↔ t.units ≠ [] := by
  induction t using Rose.induction with
  | node h ts ih =>
    have hshown : ∀ u ∈ shown (.node h ts), u.usesUnits ↔ u.units ≠ [] := fun u hu =>
      ih u (List.mem_of_mem_take hu)
    rw [usesUnits_eq, units_eq, Bool.or_eq_true, List.any_eq_true, Ne, List.append_eq_nil_iff,
      Option.toList_eq_nil_iff, List.flatMap_eq_nil_iff, not_and_or]
    push Not
    refine or_congr Option.isSome_iff_ne_none ⟨?_, ?_⟩
    · rintro ⟨u, hu, huses⟩
      exact ⟨u, hu, (hshown u hu).1 huses⟩
    · rintro ⟨u, hu, huses⟩
      exact ⟨u, hu, (hshown u hu).2 huses⟩

end Tree

/-! ### The units of what is written -/

namespace Markup

/-- Whether all attributes of the tags of an element have a property. -/
def Element.Carries (P : Attribute → Prop) (e : Element) : Prop :=
  ∀ depth, ∀ tag ∈ linesTags (e.lines depth), ∀ a ∈ tag.attributes, P a

variable {P : Attribute → Prop} {tag : String} {attributes : List Attribute}

theorem carries_empty (h : ∀ a ∈ attributes, P a) : (Element.empty tag attributes).Carries P := by
  intro depth tag' htag
  rw [List.mem_singleton.1 htag]
  exact h

theorem carries_text (text : String) (h : ∀ a ∈ attributes, P a) :
    (Element.text tag attributes text).Carries P := by
  intro depth tag' htag
  rw [List.mem_singleton.1 htag]
  exact h

theorem carries_number (parts : List String) (h : ∀ a ∈ attributes, P a) :
    (Element.number attributes parts).Carries P := by
  intro depth tag' htag
  have hlines : linesTags ((Element.number attributes parts).lines depth)
      = ⟨"cn", attributes⟩ :: List.replicate (parts.length - 1) ⟨"sep", []⟩ := List.append_nil _
  rw [hlines] at htag
  rcases List.mem_cons.1 htag with rfl | htag
  · exact h
  · rw [List.eq_of_mem_replicate htag]
    exact nofun

theorem carries_around {es : List Element} (h : ∀ a ∈ attributes, P a) (hes : ∀ e ∈ es, e.Carries P) :
    (Element.around tag attributes es).Carries P := by
  have hall (depth : Nat) : ∀ tag ∈ linesTags (linesAll depth es), ∀ a ∈ tag.attributes, P a := by
    induction es with
    | nil => exact nofun
    | cons e es ih =>
      obtain ⟨he, hes⟩ := List.forall_mem_cons.1 hes
      rw [linesAll, linesTags_append]
      exact List.forall_mem_append.2 ⟨he depth, ih hes⟩
  intro depth
  rw [linesTags_around]
  exact List.forall_mem_cons.2 ⟨h, hall (depth + 1)⟩

end Markup

namespace MathML

variable {V : List String} {waiting : List Attribute} {made : Except Halt Element}
  {others : Except Halt (List Element)} {tag : String}

/-- Whether an attribute, if it is one for units, has one of these values. -/
def UnitsIn (V : List String) (a : Attribute) : Prop := a.name = "sbml:units" → a.value ∈ V

/-- Whether an element, if it is made, has no units but these, and if not, nothing is left waiting but
what presents a node. -/
def UnitsWithin (V : List String) : Except Halt Element → Prop
  | .ok e => e.Carries (UnitsIn V)
  | .error halt => Presents halt.waiting

/-- Whether some elements, if they are made, have no units but these, and if not, nothing is left
waiting but what presents a node. -/
def UnitsWithinAll (V : List String) : Except Halt (List Element) → Prop
  | .ok es => ∀ e ∈ es, e.Carries (UnitsIn V)
  | .error halt => Presents halt.waiting

theorem UnitsWithin.followedBy (h : UnitsWithin V made) (h' : UnitsWithinAll V others) :
    UnitsWithinAll V (followedBy made others) := by
  cases made with
  | error halt => exact h
  | ok e =>
    cases others with
    | error halt => exact h'
    | ok es => exact List.forall_mem_cons.2 ⟨h, h'⟩

theorem unitsWithinAll_nil : UnitsWithinAll V (.ok []) := fun _ he => absurd he List.not_mem_nil

theorem Presents.unitsIn (h : Presents waiting) : ∀ a ∈ waiting, UnitsIn V a := by
  intro a ha hname
  have hmem : a.name ∈ ["id", "style", "class"] := h.subset (List.mem_map_of_mem ha)
  rw [hname] at hmem
  exact absurd hmem (by decide)

theorem UnitsWithinAll.around (h : UnitsWithinAll V others) (hwaiting : Presents waiting) :
    UnitsWithin V (around tag waiting others) := by
  cases others with
  | error halt => exact h
  | ok es => exact carries_around hwaiting.unitsIn h

theorem unitsWithin_empty (hwaiting : Presents waiting) : UnitsWithin V (.ok (.empty tag waiting)) :=
  carries_empty hwaiting.unitsIn

theorem unitsWithin_text (hwaiting : Presents waiting) (text : String) :
    UnitsWithin V (.ok (.text tag waiting text)) :=
  carries_text text hwaiting.unitsIn

theorem unitsWithin_symbol (hwaiting : Presents waiting) (url name : String) :
    UnitsWithin V (.ok (symbolElement waiting url name)) := by
  refine carries_text name (List.forall_mem_append.2 ⟨hwaiting.unitsIn, ?_⟩)
  intro a ha hname
  rcases List.mem_cons.1 ha with rfl | ha
  · exact absurd hname (by decide)
  · rw [List.mem_singleton.1 ha] at hname
    exact absurd hname (by decide : "definitionURL" ≠ "sbml:units")

/-- The only attribute for units that is ever written. -/
theorem unitsWithin_cn (hwaiting : Presents waiting) (type units : Option String) (parts : List String)
    (hunits : ∀ u ∈ units, u ∈ V) : UnitsWithin V (.ok (cn waiting type units parts)) := by
  refine carries_number parts (List.forall_mem_append.2
    ⟨hwaiting.unitsIn, List.forall_mem_append.2 ⟨fun a ha hname => ?_, fun a ha _ => ?_⟩⟩)
  · obtain ⟨_, -, rfl⟩ := Option.map_eq_some_iff.1 (Option.mem_toList.1 ha)
    exact absurd hname (by decide : "type" ≠ "sbml:units")
  · obtain ⟨u, hu, rfl⟩ := Option.map_eq_some_iff.1 (Option.mem_toList.1 ha)
    exact hunits u hu

/-- Elements with no units but these are put together to elements with no units but these. -/
theorem rules_units (V : List String) : Rules (· ∈ V) (UnitsWithin V) (UnitsWithinAll V) where
  halt _ hwaiting := hwaiting
  nil := unitsWithinAll_nil
  followedBy h h' := h.followedBy h'
  around _ hwaiting h := h.around hwaiting
  empty _ hwaiting := unitsWithin_empty hwaiting
  text text _ hwaiting := unitsWithin_text hwaiting text
  symbol url name hwaiting := unitsWithin_symbol hwaiting url name
  number type hwaiting hunits _ := unitsWithin_cn hwaiting type _ _ hunits

/-- What a tree comes to has no units but those of the tree. -/
theorem unitsWithin_elementWith (t : Tree) (hwaiting : Presents waiting) :
    UnitsWithin t.units (t.elementWith waiting) :=
  (rules_units t.units).elementWith t (fun _ hu => hu) hwaiting

/-! ### Sheets -/

/-- The sheets to which writing leads: trees are written one behind the other on a blank sheet, by
themselves or as documents, and whichever of them fail. -/
inductive Reached : Sheet → Prop
  | blank : Reached .blank
  | element {s : Sheet} (h : Reached s) (t : Tree) : Reached ((writeTree t).run s).2
  | document {s : Sheet} (h : Reached s) (t : Tree) : Reached ((writeDocument t).run s).2
  /-- A meaning is written without the attributes of a node. -/
  | reading {s : Sheet} (h : Reached s) (r : Reading Tree) :
    Reached ((form (r.map (Tree.operand renderer))).run s).2

variable {s s' : Sheet} {t : Tree}

theorem Reached.bare (h : Reached s) (t : Tree) : Reached ((writeBare t).run s).2 := by
  rw [writeBare, Tree.render_eq]
  cases t.reading? with
  | ok r => exact h.reading r
  | error fault => exact h

theorem presents_pending_run {scribe : Scribe Unit} (h : Writes scribe s.pending made)
    (hmade : UnitsWithin V made) : Presents (scribe.run s).2.pending := by
  specialize h s rfl
  cases made with
  | ok e =>
    dsimp only at h
    rw [h]
    exact presents_nil
  | error halt =>
    obtain ⟨lines, h⟩ := h
    rw [h]
    exact hmade

theorem unitsWithin_mathWith (hwaiting : Presents waiting) : UnitsWithin t.units (t.mathWith waiting) := by
  have helement : UnitsWithin t.units t.element :=
    unitsWithin_elementWith t (presents_presentation t.head)
  cases h : t.element with
  | error halt =>
    rw [h] at helement
    rw [Tree.mathWith, h]
    exact helement
  | ok root =>
    rw [h] at helement
    rw [Tree.mathWith, h]
    refine carries_around (List.forall_mem_append.2 ⟨hwaiting.unitsIn, fun a ha hname => ?_⟩)
      (List.forall_mem_singleton.2 helement)
    have hnames : ∀ a ∈ t.namespaces, a.name ≠ "sbml:units" := by
      unfold Tree.namespaces
      split_ifs <;> decide
    exact absurd hname (hnames a ha)

/-- Nothing ever waits on a sheet but what presents a node. -/
theorem Reached.presents (h : Reached s) : Presents s.pending := by
  induction h with
  | blank => exact presents_nil
  | element _ t =>
    exact presents_pending_run (writes_writeTree t)
      (unitsWithin_elementWith t (presents_presentation t.head))
  | document _ t ih => exact presents_pending_run (writes_writeDocument t) (unitsWithin_mathWith ih)
  | @reading s _ r ih =>
    have hwrites : Writes _ s.pending _ := writes_form r fun x _ => writes_writeBare x
    refine presents_pending_run hwrites ((rules_units r.units).draft ih (fun u hu => ?_) fun x hx => ?_)
    · exact List.mem_append_left _ (Option.mem_toList.2 hu)
    · exact (rules_units r.units).element x (fun u hu => Reading.units_subset_of_mem_operands hx hu)

/-- Whether a tag declares the prefix of the attribute for units. -/
def Declares (tag : Tag) : Prop := ⟨"xmlns:sbml", sbmlNamespace⟩ ∈ tag.attributes

theorem declares_math_iff (hwaiting : Presents waiting) :
    Declares ⟨"math", waiting ++ t.namespaces⟩ ↔ t.units ≠ [] := by
  have hpending : ⟨"xmlns:sbml", sbmlNamespace⟩ ∉ waiting := fun h => by
    have hmem : "xmlns:sbml" ∈ ["id", "style", "class"] := hwaiting.subset (List.mem_map_of_mem h)
    exact absurd hmem (by decide)
  rw [← Tree.usesUnits_iff, Declares, List.mem_append, or_iff_right hpending, Tree.namespaces]
  split_ifs with huses <;> simp [huses]

/-- On whatever sheet a document is written, its first tag is that of the document, and every
attribute for units among its tags has the units of a number that the tree shows.  The prefix is
declared just if there are such numbers, and so wherever it is used. -/
theorem units_declared (hs : Reached s) (h : (writeDocument t).run s = (.ok (), s')) :
    ∃ (math : Tag) (tags : List Tag), s'.tags = s.tags ++ math :: tags ∧ math.name = "math" ∧
      (∀ tag ∈ math :: tags, ∀ a ∈ tag.attributes, a.name = "sbml:units" →
        Declares math ∧ a.value ∈ t.units) ∧
      (Declares math ↔ t.units ≠ []) := by
  obtain ⟨e, he, rfl⟩ := ((writes_writeDocument t).run_eq_ok_iff rfl).1 h
  have hunits : e.Carries (UnitsIn t.units) := by
    have hwithin := unitsWithin_mathWith hs.presents (t := t)
    rwa [he] at hwithin
  obtain ⟨root, -, rfl⟩ := Tree.mathWith_eq_ok_iff.1 he
  have hdeclares := declares_math_iff hs.presents (t := t)
  refine ⟨⟨"math", s.pending ++ t.namespaces⟩, linesTags (linesAll (s.depth + 1) [root]), ?_, rfl,
    fun tag htag a ha hname => ?_, hdeclares⟩
  · rw [Sheet.tags_extend, linesTags_around]
  · rw [← linesTags_around] at htag
    have hvalue : a.value ∈ t.units := hunits s.depth tag htag a ha hname
    exact ⟨hdeclares.2 (List.ne_nil_of_mem hvalue), hvalue⟩

/-- A document with units, behind a sine that could not be written, with its id and then without. -/
theorem units_declared_mole :
    let sine : Tree := Tree.leaf { Head.ofKind (.elementary .sin) with id := some "i1" }
    let mole : Tree := Tree.leaf { kind := .integer, payload := .integer (some 1) (some "mole") }
    let t : Tree := .node (.ofKind .plus) [mole]
    let s : Sheet := ((writeBare sine).run ((writeTree sine).run .blank).2).2
    let s' : Sheet := ((writeDocument t).run s).2
    let cn : Tag := ⟨"cn", [⟨"type", "integer"⟩, ⟨"sbml:units", "mole"⟩]⟩
    (Reached s ∧ (writeDocument t).run s = (.ok (), s')) ∧ s.pending = [⟨"id", "i1"⟩] ∧
    ∃ math, s'.tags = s.tags ++ [math, ⟨"apply", []⟩, ⟨"plus", []⟩, cn] ∧ Declares math ∧
      "mole" ∈ t.units := by
  intro sine mole t s s' cn
  have hs : Reached s := (Reached.blank.element sine).bare sine
  have hrun : (writeDocument t).run s = (.ok (), s') := rfl
  obtain ⟨math, tags, htags, -, hunits, -⟩ := units_declared hs hrun
  have hall : s'.tags.tail = [⟨"apply", []⟩, ⟨"plus", []⟩, cn] := by decide
  have hempty : s.tags = [] := rfl
  rw [hempty, List.nil_append] at htags
  rw [htags, List.tail_cons] at hall
  rw [hall] at htags hunits
  have hcn : cn ∈ [math, ⟨"apply", []⟩, ⟨"plus", []⟩, cn] := by simp
  obtain ⟨hdeclares, hmole⟩ := hunits cn hcn ⟨"sbml:units", "mole"⟩ (by simp [cn]) rfl
  exact ⟨⟨hs, hrun⟩, rfl, math, htags, hdeclares, hmole⟩

end MathML

end MathTree

import MathTree.Render.MathML
import MathTree.Proofs.Markup.Element
import MathTree.Proofs.Render.Operands

/-!
# Drafts

What the writing of a tree comes to, told without a sheet: the element that the tree is, or where the
writing breaks off (`Tree.element`).  A draft depends on the attributes that wait for it, and on
nothing else that is on the sheet.  `writes_writeTree` says that the tree is written just so on every
sheet, which leaves the rest of the theory to speak of elements.
-/

namespace MathTree

open MathTree.Number MathTree.Markup MathML

namespace MathML

/-- An operand, and what it comes to with some attributes waiting. -/
abbrev Draft := Operand (List Attribute → Except Halt Element)

/-- An operand with its own attributes. -/
def elementOf (x : Draft) : Except Halt Element := x.result (presentation x.tree.head)

def elementsOf (xs : List Draft) : Except Halt (List Element) :=
  xs.foldr (fun x => followedBy (elementOf x)) (.ok [])

/-- An application whose content begins with an element. -/
def applied (waiting : List Attribute) (operator : Element) (content : Except Halt (List Element)) :
    Except Halt Element :=
  around "apply" waiting (followedBy (.ok operator) content)

/-- An operator applied to operands. -/
def operation (waiting : List Attribute) (operator : String) (xs : List Draft) :
    Except Halt Element :=
  applied waiting (.empty operator []) (elementsOf xs)

/-- An operand inside a qualifier, unless it is that qualifier. -/
def qualification (q : Qualifier) (x : Draft) : Except Halt Element :=
  if x.tree.kind = .qualifier q then elementOf x else around q.elementName [] (elementsOf [x])

/-- A symbol with a fixed definition. -/
def symbolElement (waiting : List Attribute) (url name : String) : Element :=
  .text "csymbol" (waiting ++ [⟨"encoding", "text"⟩, ⟨"definitionURL", url⟩]) name

/-- A number of a type, with units if it has any. -/
def cn (waiting : List Attribute) (type units : Option String) (parts : List String) : Element :=
  .number (waiting ++ ((type.map (Attribute.mk "type")).toList
    ++ (units.map (Attribute.mk "sbml:units")).toList)) parts

/-- What a node with these operands comes to. -/
def draft (reading : Reading Draft) (waiting : List Attribute) : Except Halt Element :=
  match reading with
  | .sum terms => operation waiting "plus" terms
  | .difference left right => operation waiting "minus" [left, right]
  | .negation x => operation waiting "minus" [x]
  | .product factors => operation waiting "times" factors
  | .quotient numerator denominator => operation waiting "divide" [numerator, denominator]
  | .power base exponent => operation waiting "power" [base, exponent]
  | .root degree radicand =>
    if degree.tree.isLiteral 0 then .error ⟨.zerothRoot, 0, waiting⟩
    else
      applied waiting (.empty "root" [])
        (followedBy (qualification .degree degree) (elementsOf [radicand]))
  | .squareRoot radicand => operation waiting "root" [radicand]
  | .logarithm base x =>
    applied waiting (.empty "log" [])
      (if base.tree.isLiteral 10 then elementsOf [x]
        else followedBy (qualification .logbase base) (elementsOf [x]))
  | .delay name x lag =>
    applied waiting (symbolElement [] Kind.delayUrl name) (elementsOf [x, lag])
  | .relation r left right => operation waiting r.elementName [left, right]
  | .connective c xs => operation waiting c.elementName xs
  | .not x => operation waiting "not" [x]
  | .elementary f x => operation waiting f.elementName [x]
  | .integer value units => .ok (cn waiting (some "integer") units [intText value.toInt])
  | .real value units =>
    .ok (if value.isNan then .empty "notanumber" waiting else cn waiting none units [value.realText])
  | .rational n d units =>
    .ok (cn waiting (some "rational") units [intText n.toInt, intText d.toInt])
  | .exponential mantissa exponent units =>
    .ok (cn waiting (some "e-notation") units [mantissa.realText, intText exponent.toInt])
  | .infinity false => .ok (.empty "infinity" waiting)
  | .infinity true => applied waiting (.empty "minus" []) (.ok [.empty "infinity" []])
  | .constant c => .ok (.empty c.elementName waiting)
  | .avogadro name => .ok (symbolElement waiting Kind.avogadroUrl name)
  | .time name => .ok (symbolElement waiting Kind.timeUrl name)
  | .identifier name => .ok (.text "ci" waiting name)
  | .lambda parts => around "lambda" waiting (elementsOf parts)
  | .piecewise parts => around "piecewise" waiting (elementsOf parts)
  | .call name xs => applied waiting (.text "ci" [] name) (elementsOf xs)
  | .qualifier q parts => around q.elementName waiting (elementsOf parts)
  | .unknown => .error ⟨.unknownNode, 0, waiting⟩

/-- How drafts are made of trees. -/
def drafter : Renderer (List Attribute → Except Halt Element) :=
  ⟨fun fault waiting => .error ⟨fault, 0, waiting⟩, draft⟩

end MathML

/-- What a tree comes to with some attributes waiting. -/
def Tree.elementWith (t : Tree) (waiting : List Attribute) : Except Halt Element :=
  t.render MathML.drafter waiting

/-- What a tree comes to with its own attributes. -/
def Tree.element (t : Tree) : Except Halt Element := t.elementWith (MathML.presentation t.head)

namespace MathML

variable {waiting : List Attribute} {x : Tree} {xs : List Tree} {tag : String} {rest : Scribe Unit}
  {others : Except Halt (List Element)}

/-- Whether a tree is written as it is drafted. -/
def Agrees (t : Tree) : Prop := ∀ waiting, Writes (writeBare t) waiting (t.elementWith waiting)

theorem Agrees.emit (h : Agrees x) :
    Writes (emit (x.operand renderer)) waiting (elementOf (x.operand drafter)) :=
  (h (presentation x.head)).setPending

theorem Agrees.closes (h : Agrees x) (hrest : Closes tag rest others) :
    Closes tag (MathML.emit (x.operand renderer) >>= fun _ => rest)
      (followedBy (elementOf (x.operand drafter)) others) :=
  .cons h.emit hrest

theorem closes_emitAll (h : ∀ x ∈ xs, Agrees x) :
    Closes tag (emitAll (xs.map (Tree.operand renderer)) >>= fun _ => closeElement tag)
      (elementsOf (xs.map (Tree.operand drafter))) := by
  induction xs with
  | nil => exact closes_closeElement
  | cons x xs ih =>
    have hx := h x List.mem_cons_self
    have hxs := ih fun y hy => h y (List.mem_cons_of_mem _ hy)
    have hcons : emitAll ((x :: xs).map (Tree.operand renderer))
        = MathML.emit (x.operand renderer) >>= fun _ => emitAll (xs.map (Tree.operand renderer)) := rfl
    rw [hcons, bind_assoc]
    exact hx.closes hxs

theorem writes_around (h : Closes tag rest others) :
    Writes (openElement tag [] >>= fun _ => rest) waiting (around tag waiting others) := by
  have hwrites : Writes _ waiting _ := writes_openElement [] h
  rwa [List.append_nil] at hwrites

theorem writes_enclose (h : ∀ x ∈ xs, Agrees x) :
    Writes (enclose tag (xs.map (Tree.operand renderer))) waiting
      (around tag waiting (elementsOf (xs.map (Tree.operand drafter)))) :=
  writes_around (closes_emitAll h)

theorem writes_apply {operator : String} (xs : List Tree) (h : ∀ x ∈ xs, Agrees x) :
    Writes (apply operator (xs.map (Tree.operand renderer))) waiting
      (operation waiting operator (xs.map (Tree.operand drafter))) :=
  writes_around (.cons writes_empty (closes_emitAll h))

theorem writes_qualified {q : Qualifier} (h : Agrees x) :
    Writes (qualified q (x.operand renderer)) [] (qualification q (x.operand drafter)) := by
  have hrenderer : (x.operand renderer).tree = x := rfl
  have hdrafter : (x.operand drafter).tree = x := rfl
  rw [qualified, qualification, hrenderer, hdrafter]
  split
  · exact h.emit
  · exact writes_openBare (h.closes closes_closeElement)

theorem writes_csymbol (url name : String) :
    Writes (csymbol url name) waiting (.ok (symbolElement waiting url name)) :=
  writes_textElement name

theorem writes_number (type units : Option String) (parts : List String) :
    Writes (number type units parts) waiting (.ok (cn waiting type units parts)) :=
  writes_numberElement parts

/-- A node is written as it is drafted if its operands are. -/
theorem writes_form (reading : Reading Tree) (h : ∀ x ∈ reading.operands, Agrees x) :
    Writes (form (reading.map (Tree.operand renderer))) waiting
      (draft (reading.map (Tree.operand drafter)) waiting) := by
  cases reading with
  | sum | product | connective =>
    simp only [Reading.map, form, draft]
    exact writes_apply _ h
  | difference | quotient | power | relation =>
    simp only [Reading.map, form, draft]
    exact writes_apply [_, _] h
  | negation | squareRoot | not | elementary =>
    simp only [Reading.map, form, draft]
    exact writes_apply [_] h
  | lambda | piecewise | qualifier =>
    simp only [Reading.map, form, draft]
    exact writes_enclose h
  | integer | rational | exponential =>
    simp only [Reading.map, form, draft]
    exact writes_number _ _ _
  | avogadro | time =>
    simp only [Reading.map, form, draft]
    exact writes_csymbol _ _
  | constant => exact writes_emptyElement
  | unknown => exact writes_throw .unknownNode
  | identifier name =>
    have hwrites : Writes (textElement "ci" [] name) waiting _ := writes_textElement name
    rwa [List.append_nil] at hwrites
  | real value units =>
    simp only [Reading.map, form, draft]
    split
    · exact writes_emptyElement
    · exact writes_number _ _ _
  | infinity negative =>
    cases negative with
    | false => exact writes_emptyElement
    | true => exact writes_around (.cons writes_empty (.cons writes_empty closes_closeElement))
  | call name xs => exact writes_around (.cons (writes_textElement name) (closes_emitAll h))
  | delay name x lag =>
    simp only [Reading.map, form, draft]
    have hx := h x (by simp [Reading.operands])
    have hlag := h lag (by simp [Reading.operands])
    exact writes_around (.cons (writes_csymbol _ _) (hx.closes (hlag.closes closes_closeElement)))
  | root degree radicand =>
    simp only [Reading.map, form, draft]
    have hdegree : Agrees degree := h degree (by simp [Reading.operands])
    have hradicand : Agrees radicand := h radicand (by simp [Reading.operands])
    by_cases hzero : degree.isLiteral 0
    · have hthrow : Writes (throw .zerothRoot) waiting _ := writes_throw .zerothRoot
      simpa [Tree.operand, hzero] using hthrow
    · have hroot : Writes (write (.empty "root" [])) [] (.ok (.empty "root" [])) := writes_empty
      have hrest : Closes "apply" _ _ := hradicand.closes closes_closeElement
      have happly : Writes _ waiting _ :=
        writes_around (.cons hroot (.cons (writes_qualified (q := .degree) hdegree) hrest))
      have htree : (degree.operand renderer).tree = degree := rfl
      have htree' : (degree.operand drafter).tree = degree := rfl
      rw [htree, htree', if_neg hzero, if_neg hzero]
      exact happly
  | logarithm base x =>
    simp only [Reading.map, form, draft]
    have hbase : Agrees base := h base (by simp [Reading.operands])
    have hx : Agrees x := h x (by simp [Reading.operands])
    have hrest : Closes "apply" _ _ := hx.closes closes_closeElement
    have htree : (base.operand renderer).tree = base := rfl
    have htree' : (base.operand drafter).tree = base := rfl
    rw [htree, htree']
    refine writes_around (.cons writes_empty ?_)
    cases base.isLiteral 10 with
    | true => exact hrest
    | false => exact .cons (writes_qualified hbase) hrest

end MathML

namespace Tree

variable {t : Tree} {reading : Reading Tree} {fault : Fault} (waiting : List Attribute)

theorem elementWith_of_ok (h : t.reading? = .ok reading) :
    t.elementWith waiting = draft (reading.map (operand drafter)) waiting := by
  rw [elementWith, render_eq, h]
  rfl

theorem elementWith_of_error (h : t.reading? = .error fault) :
    t.elementWith waiting = .error ⟨fault, 0, waiting⟩ := by
  rw [elementWith, render_eq, h]
  rfl

/-- The attributes of a document: the namespaces that the tree needs. -/
def namespaces (t : Tree) : List Attribute :=
  ⟨"xmlns", mathNamespace⟩ :: if t.usesUnits then [⟨"xmlns:sbml", sbmlNamespace⟩] else []

/-- What a document of a tree comes to. -/
def mathWith (t : Tree) (waiting : List Attribute) : Except Halt Element :=
  around "math" (waiting ++ t.namespaces) (followedBy t.element (.ok []))

theorem mathWith_eq_ok_iff {waiting : List Attribute} {e : Element} : t.mathWith waiting = .ok e ↔
    ∃ root, t.element = .ok root ∧ e = .around "math" (waiting ++ t.namespaces) [root] := by
  simp only [mathWith, around_eq_ok_iff, followedBy_eq_ok_iff]
  constructor
  · rintro ⟨_, ⟨root, _, hroot, hnil, rfl⟩, rfl⟩
    cases hnil
    exact ⟨root, hroot, rfl⟩
  · rintro ⟨root, hroot, rfl⟩
    exact ⟨[root], ⟨root, [], hroot, rfl, rfl⟩, rfl⟩

end Tree

namespace MathML

/-- Every tree is written as it is drafted. -/
theorem writes_writeBare (t : Tree) : Agrees t := by
  induction t using Tree.reading_induction with
  | step t ih =>
    intro waiting
    cases hr : t.reading? with
    | error fault =>
      rw [Tree.elementWith_of_error waiting hr, writeBare, Tree.render_eq, hr]
      exact writes_throw fault
    | ok reading =>
      rw [Tree.elementWith_of_ok waiting hr, writeBare, Tree.render_eq, hr]
      exact writes_form reading (ih reading hr)

theorem writes_writeTree (t : Tree) : Writes (writeTree t) waiting t.element :=
  (writes_writeBare t).emit

theorem writes_writeDocument (t : Tree) : Writes (writeDocument t) waiting (t.mathWith waiting) :=
  writes_openElement _ (.cons (writes_writeTree t) closes_closeElement)

end MathML

/-! ### Blank sheets -/

theorem Markup.Writes.written_eq_ok_iff {scribe : Scribe Unit} {made : Except Halt Element}
    {indent : Nat} {text : String} (h : Writes scribe [] made) :
    MathML.written indent scribe = .ok text ↔ ∃ e, made = .ok e ∧ e.textAt indent 0 = text := by
  specialize h .blank rfl
  rw [MathML.written]
  cases made with
  | error halt =>
    obtain ⟨lines, h⟩ := h
    simp [h]
  | ok e =>
    dsimp only at h
    have hdepth : Sheet.blank.depth = 0 := rfl
    have hblank : Sheet.blank.text indent = "" := rfl
    simp [h, Sheet.text_extend, hblank, hdepth, Element.textAt]

theorem Markup.Writes.isOk_written {scribe : Scribe Unit} {made : Except Halt Element} (indent : Nat)
    (h : Writes scribe [] made) : (MathML.written indent scribe).isOk = made.isOk := by
  specialize h .blank rfl
  rw [MathML.written]
  cases made with
  | error halt =>
    obtain ⟨lines, h⟩ := h
    rw [h]
    rfl
  | ok e =>
    dsimp only at h
    rw [h]
    rfl

namespace Tree

variable {t : Tree} {indent : Nat} {text : String}

theorem mathElement_eq_ok_iff :
    t.mathElement indent = .ok text ↔ ∃ e, t.element = .ok e ∧ e.textAt indent 0 = text :=
  (writes_writeTree t).written_eq_ok_iff

theorem mathDocument_eq_ok_iff :
    t.mathDocument indent = .ok text ↔ ∃ e, t.mathWith [] = .ok e ∧ e.textAt indent 0 = text :=
  (writes_writeDocument t).written_eq_ok_iff

end Tree

end MathTree

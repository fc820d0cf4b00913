import MathTree.Proofs.Markup.Failure
import MathTree.Proofs.Markup.Scan
import MathTree.Proofs.Markup.Stream

/-!
# Layout

Markup with indentation is the same markup, laid out: the pieces of text that follow each other without
indentation stand on lines of their own, each moved in as deep as elements are open around it.  How
many these are is read off the text alone (`openAround`), by the `Scan` that reads markup, so that it
does not rest on the depth that is counted while writing (`indentation_layout`).
-/

namespace MathTree

open MathTree.Number MathTree.Markup MathML

namespace Markup

/-! ### Open elements -/

/-- A scan of which nothing is read yet, in an element that stands for all that is read. -/
def Scan.start : Scan := ⟨[.node ⟨"", [], []⟩ []], []⟩

/-- How many elements a text leaves open. -/
def openElements (text : String) : Nat := (Scan.start.after text).stack.length - 1

/-- How many elements are open around a piece that stands behind another text: those that this text
leaves open and that are still open behind the piece. -/
def openAround (before piece : String) : Nat :=
  min (openElements before) (openElements (before ++ piece))

example : openElements "<apply><plus/><ci>x</ci>" = 1 ∧ openAround "<apply><plus/>" "</apply>" = 0 := by
  decide

/-! ### Pieces -/

/-- A piece of text, and how deep it is nested. -/
structure Piece where
  depth : Nat
  text : String
  deriving DecidableEq, Repr

/-- A piece on a line of its own, moved in. -/
def Piece.line (indent : Nat) (piece : Piece) : String :=
  String.ofList (List.replicate (piece.depth * indent) ' ') ++ piece.text ++ "\n"

/-- Whether pieces make up a text, each as deep as elements are open around it. -/
structure IsLayout (text : String) (pieces : List Piece) : Prop where
  text_eq : String.join (pieces.map Piece.text) = text
  depth_eq : ∀ before piece after, pieces = before ++ piece :: after →
    piece.depth = openAround (String.join (before.map Piece.text)) piece.text

/-- The piece of a line. -/
def Line.piece (line : Line) : Piece := ⟨line.depth, line.mark.text⟩

theorem linesText_zero (lines : List Line) :
    linesText 0 lines = String.join ((lines.map Line.piece).map Piece.text) := by
  rw [linesText, List.map_map]
  rfl

theorem linesText_of_pos {indent : Nat} (h : 0 < indent) (lines : List Line) :
    linesText indent lines = String.join ((lines.map Line.piece).map (Piece.line indent)) := by
  rw [linesText, List.map_map]
  refine congrArg String.join (List.map_congr_left fun line _ => ?_)
  exact if_neg (Nat.ne_of_gt h)

theorem linesText_cons (line : Line) (lines : List Line) :
    linesText 0 (line :: lines) = line.mark.text ++ linesText 0 lines := by
  rw [linesText, List.map_cons, String.join_cons]
  rfl

/-! ### Lines that are as deep as they stand -/

namespace Scan

/-- Whether each of some lines, read one behind the other, is as deep as elements are open around it. -/
def Nests (s : Scan) : List Line → Prop
  | [] => True
  | line :: lines => line.depth + 1 = min s.stack.length (s.after line.mark.text).stack.length ∧
    (s.after line.mark.text).Nests lines

variable {s : Scan} {lines before after : List Line} {line : Line}

theorem nests_append : s.Nests (before ++ after) ↔
    s.Nests before ∧ (s.after (linesText 0 before)).Nests after := by
  induction before generalizing s with
  | nil =>
    have hempty : s.after (linesText 0 []) = s := rfl
    simp [Nests, hempty]
  | cons line lines ih =>
    rw [List.cons_append, Nests, Nests, ih, linesText_cons, after_append, and_assoc]

theorem Nests.depth_eq (h : s.Nests (before ++ line :: after)) :
    line.depth + 1 = min (s.after (linesText 0 before)).stack.length
      (s.after (linesText 0 before ++ line.mark.text)).stack.length := by
  rw [after_append]
  exact (nests_append.1 h).2.1

variable {stack : List Xml}

/-- A line with a whole element on it. -/
theorem nests_of_mark {e : Element} {mark : Mark} (h : e.Proper) (x : Xml)
    (hlines : e.lines stack.length = [⟨stack.length, mark⟩]) :
    Nests ⟨x :: stack, []⟩ (e.lines stack.length) := by
  have hafter : Scan.after ⟨x :: stack, []⟩ mark.text = ⟨x.add e.xml :: stack, []⟩ := by
    rw [← textAt_of_mark hlines]
    exact after_textAt h stack.length
  rw [hlines, Nests, hafter]
  simp [Nests]

theorem nests_linesAll {es : List Element} {l : Label} {xs : List Xml}
    (h : ∀ e ∈ es, e.Proper ∧ ∀ x, Nests ⟨x :: stack, []⟩ (e.lines stack.length)) :
    Nests ⟨.node l xs :: stack, []⟩ (linesAll stack.length es) := by
  induction es generalizing xs with
  | nil => trivial
  | cons e es ih =>
    obtain ⟨⟨hproper, he⟩, hes⟩ := List.forall_mem_cons.1 h
    rw [linesAll, nests_append]
    refine ⟨he _, ?_⟩
    show Nests (Scan.after ⟨.node l xs :: stack, []⟩ (e.textAt 0 stack.length)) _
    rw [after_textAt hproper]
    exact ih hes

/-- The lines of an element, read inside of as many elements as they are deep, are each as deep as they
stand. -/
theorem nests_lines {e : Element} (h : e.Proper) (x : Xml) (stack : List Xml) :
    Nests ⟨x :: stack, []⟩ (e.lines stack.length) := by
  induction h generalizing x stack with
  | empty htag hattributes => exact nests_of_mark (.empty htag hattributes) x rfl
  | text htag hattributes => exact nests_of_mark (.text htag hattributes) x rfl
  | number hattributes hparts => exact nests_of_mark (.number hattributes hparts) x rfl
  | @around tag attributes content htag hattributes hcontent ih =>
    -- the element is on the stack from its first line until behind its last
    let inside : List Xml := x :: stack
    have hstart : Scan.after ⟨x :: stack, []⟩ (Mark.start tag attributes).text
        = ⟨.node ⟨tag, attributes, []⟩ [] :: inside, []⟩ := by
      rw [← String.append_empty (s := (Mark.start tag attributes).text),
        after_start_append htag hattributes]
      rfl
    have hinside : Scan.after ⟨.node ⟨tag, attributes, []⟩ [] :: inside, []⟩
        (linesText 0 (linesAll inside.length content))
        = ⟨.node ⟨tag, attributes, []⟩ (xmlAll content) :: inside, []⟩ := by
      rw [← String.append_empty (s := linesText 0 _),
        after_linesAll_append fun e he _ _ => after_textAt (hcontent e he) _]
      rfl
    have hfinish : Scan.after ⟨.node ⟨tag, attributes, []⟩ (xmlAll content) :: inside, []⟩
        (Mark.finish tag).text = ⟨x.add (.node ⟨tag, attributes, []⟩ (xmlAll content)) :: stack, []⟩ := by
      rw [after_finish htag]
      rfl
    have hnests : Nests ⟨.node ⟨tag, attributes, []⟩ [] :: inside, []⟩ (linesAll inside.length content) :=
      nests_linesAll fun e he => ⟨hcontent e he, fun x => ih e he x inside⟩
    rw [Element.lines, Nests, hstart, nests_append]
    refine ⟨by simp [inside], hnests, ?_⟩
    show Nests (Scan.after _ (linesText 0 (linesAll inside.length content))) _
    rw [hinside, Nests, hfinish]
    simp [Nests, inside]

end Scan

/-- An element by itself is laid out in its lines. -/
theorem Element.Proper.isLayout {e : Element} (h : e.Proper) :
    IsLayout (e.textAt 0 0) ((e.lines 0).map Line.piece) := by
  refine ⟨(linesText_zero _).symm, fun before piece after hsplit => ?_⟩
  obtain ⟨lines, rest, hlines, rfl, hrest⟩ := List.map_eq_append_iff.1 hsplit
  obtain ⟨line, lines', rfl, rfl, rfl⟩ := List.map_eq_cons_iff.1 hrest
  have hnests : Scan.start.Nests (e.lines 0) := Scan.nests_lines h _ []
  rw [hlines] at hnests
  have hdepth := hnests.depth_eq
  rw [← linesText_zero]
  show line.depth = min (openElements (linesText 0 lines))
    (openElements (linesText 0 lines ++ line.mark.text))
  simp only [openElements]
  omega

end Markup

namespace MathML

theorem Item.proper_of_made {e : Element} : {item : Item} → item.made = .ok e → e.Proper
  | .element _ => Tree.proper_of_element
  | .document _ => Tree.proper_of_mathWith

/-- Whether something can be written does not depend on the indentation, and if not, then neither does
the fault.  What is written without indentation can be cut into pieces which, with any indentation,
stand on lines of their own, moved in by so much for each element that is open around them. -/
theorem indentation_layout (item : Item) :
    (∀ indent fault,
      written indent item.scribe = .error fault ↔ written 0 item.scribe = .error fault) ∧
    ∀ text, written 0 item.scribe = .ok text → ∃ pieces, IsLayout text pieces ∧
      ∀ indent, 0 < indent →
        written indent item.scribe = .ok (String.join (pieces.map (Piece.line indent))) := by
  constructor
  · intro indent fault
    rw [item.writes_scribe.written_eq_error_iff, item.writes_scribe.written_eq_error_iff]
  · intro text htext
    obtain ⟨e, he, rfl⟩ := Item.written_eq_ok_iff.1 htext
    refine ⟨(e.lines 0).map Line.piece, (Item.proper_of_made he).isLayout, fun indent hindent => ?_⟩
    refine Item.written_eq_ok_iff.2 ⟨e, he, ?_⟩
    rw [Element.textAt, linesText_of_pos hindent]

/-- A document of a power, without indentation and moved in by two. -/
theorem indentation_layout_power :
    let t : Tree := .node (.ofKind .power) [Tree.leaf (.identifier "x"), Tree.leaf (.integerLiteral 2)]
    let text := "<math xmlns=\"http://www.w3.org/1998/Math/MathML\"><apply><power/>" ++
      "<ci>x</ci><cn type=\"integer\"> 2 </cn></apply></math>"
    let laidOut := "<math xmlns=\"http://www.w3.org/1998/Math/MathML\">\n  <apply>\n    <power/>\n" ++
      "    <ci>x</ci>\n    <cn type=\"integer\"> 2 </cn>\n  </apply>\n</math>\n"
    (written 0 (Item.document t).scribe = .ok text ∧ 0 < 2) ∧
    (∀ fault, ¬ written 2 (Item.document t).scribe = .error fault) ∧
    ∃ pieces, IsLayout text pieces ∧ String.join (pieces.map (Piece.line 2)) = laidOut := by
  intro t text laidOut
  have htext : written 0 (Item.document t).scribe = .ok text := by decide
  have hlaidOut : written 2 (Item.document t).scribe = .ok laidOut := by decide
  obtain ⟨herror, hok⟩ := indentation_layout (.document t)
  obtain ⟨pieces, hpieces, hindent⟩ := hok text htext
  refine ⟨⟨htext, by decide⟩, fun fault => ?_, pieces, hpieces, ?_⟩
  · rw [herror, htext]
    simp
  · have hlines := (hindent 2 (by decide)).symm.trans hlaidOut
    exact Except.ok.inj hlines

end MathML

end MathTree

import Mathlib.Data.List.Forall2
import MathTree.Proofs.Markup.Draft

/-!
# Many trees on one sheet

What can be written is written alike on every sheet on which nothing waits, moved in by as many levels
as elements are open there (`Item.run_eq_ok_iff`).  So the items of a list do not disturb each other,
and a sheet with all of them on it reads as sheets with one of them each, put together
(`stream_composes`).
-/

namespace MathTree.MathML

open MathTree.Markup

/-- Something to be written on a sheet. -/
inductive Item where
  /-- A tree with its attributes. -/
  | element (t : Tree)
  /-- A tree as a whole document. -/
  | document (t : Tree)

namespace Item

variable {item : Item} {items : List Item} {indent : Nat} {s s' : Sheet}

/-- What writes an item. -/
def scribe : Item → Scribe Unit
  | .element t => writeTree t
  | .document t => writeDocument t

/-- What an item comes to where nothing waits. -/
def made : Item → Except Halt Element
  | .element t => t.element
  | .document t => t.mathWith []

theorem writes_scribe : (item : Item) → Writes item.scribe [] item.made
  | .element t => writes_writeTree t
  | .document t => writes_writeDocument t

theorem run_eq_ok_iff (hs : s.pending = []) : item.scribe.run s = (.ok (), s') ↔
    ∃ e, item.made = .ok e ∧ s' = s.extend (e.lines s.depth) s.depth [] :=
  item.writes_scribe.run_eq_ok_iff hs

theorem written_eq_ok_iff {text : String} : written indent item.scribe = .ok text ↔
    ∃ e, item.made = .ok e ∧ e.textAt indent 0 = text :=
  item.writes_scribe.written_eq_ok_iff

/-- Items that each come to an element are written one behind the other, as the elements in order. -/
theorem run_forM {es : List Element} (hs : s.pending = [])
    (h : List.Forall₂ (fun item e => item.made = .ok e) items es) :
    (items.forM scribe).run s = (.ok (), s.extend (linesAll s.depth es) s.depth []) := by
  induction h generalizing s with
  | nil =>
    rw [linesAll, Sheet.extend_nil, ← hs]
    rfl
  | @cons item e items es he _ ih =>
    have hitem : item.scribe.run s = (.ok (), s.extend (e.lines s.depth) s.depth []) :=
      (run_eq_ok_iff hs).2 ⟨e, he, rfl⟩
    rw [List.forM_eq_forM, List.forM_cons, run_bind, hitem]
    simpa [linesAll] using ih (s := s.extend (e.lines s.depth) s.depth []) rfl

end Item

theorem linesText_linesAll (indent depth : Nat) (es : List Element) :
    linesText indent (linesAll depth es) = String.join (es.map (Element.textAt indent depth)) := by
  induction es with
  | nil => rfl
  | cons e es ih => rw [linesAll, linesText_append, ih, List.map_cons, String.join_cons, Element.textAt]

/-- What can be written is put behind what is on the sheet, leaves the depth as it was and nothing
waiting, and what it adds depends on the item, the indentation and the depth alone.  So many items on
one sheet make the text that they make one by one on sheets of their own. -/
theorem stream_composes :
    (∀ item : Item, ∃ text : (indent depth : Nat) → String, ∀ s s' : Sheet,
      s.pending = [] → item.scribe.run s = (.ok (), s') →
        s'.depth = s.depth ∧ s'.pending = [] ∧
        ∀ indent, s'.text indent = s.text indent ++ text indent s.depth) ∧
    ∀ (indent : Nat) (items : List Item) (texts : List String),
      List.Forall₂ (fun item text => written indent item.scribe = .ok text) items texts →
        written indent (items.forM Item.scribe) = .ok (String.join texts) := by
  refine ⟨fun item => ?_, fun indent items texts h => ?_⟩
  · cases hmade : item.made with
    | error halt =>
      refine ⟨fun _ _ => "", fun s s' hs hrun => ?_⟩
      obtain ⟨e, he, -⟩ := (Item.run_eq_ok_iff hs).1 hrun
      rw [hmade] at he
      cases he
    | ok e =>
      refine ⟨fun indent depth => e.textAt indent depth, fun s s' hs hrun => ?_⟩
      obtain ⟨e', he, rfl⟩ := (Item.run_eq_ok_iff hs).1 hrun
      rw [hmade] at he
      cases he
      exact ⟨rfl, rfl, fun indent => Sheet.text_extend ..⟩
  · obtain ⟨es, hes, htexts⟩ : ∃ es, List.Forall₂ (fun item e => item.made = .ok e) items es ∧
        es.map (Element.textAt indent 0) = texts := by
      induction h with
      | nil => exact ⟨[], .nil, rfl⟩
      | cons hitem _ ih =>
        obtain ⟨e, he, rfl⟩ := Item.written_eq_ok_iff.1 hitem
        obtain ⟨es, hes, rfl⟩ := ih
        exact ⟨e :: es, .cons he hes, rfl⟩
    have hblank : Sheet.blank.text indent = "" := rfl
    rw [written, Item.run_forM rfl hes, ← htexts]
    simp only [Sheet.text_extend, hblank, String.empty_append, linesText_linesAll]
    rfl

/-- A name with attributes, and then a document. -/
theorem stream_composes_document :
    let x : Tree := .leaf { Head.identifier "x" with id := some "i1" }
    let y : Tree := .leaf (.identifier "y")
    let s : Sheet := ⟨#[⟨0, .start "lambda" []⟩], 1, []⟩
    let s' : Sheet := ⟨#[⟨0, .start "lambda" []⟩, ⟨1, .element "ci" [⟨"id", "i1"⟩] "x"⟩], 1, []⟩
    let texts := ["<ci id=\"i1\">x</ci>",
      "<math xmlns=\"http://www.w3.org/1998/Math/MathML\"><ci>y</ci></math>"]
    (s.pending = [] ∧ (Item.element x).scribe.run s = (.ok (), s') ∧
      List.Forall₂ (fun item text => written 0 item.scribe = .ok text)
        [Item.element x, .document y] texts) ∧
    (∃ text : Nat → Nat → String, s'.depth = s.depth ∧ s'.pending = [] ∧
      ∀ indent, s'.text indent = s.text indent ++ text indent s.depth) ∧
    written 0 ([Item.element x, .document y].forM Item.scribe) = .ok (String.join texts) := by
  intro x y s s' texts
  have hrun : (Item.element x).scribe.run s = (.ok (), s') := rfl
  have htexts : List.Forall₂ (fun item text => written 0 item.scribe = .ok text)
      [Item.element x, .document y] texts := .cons (by decide) (.cons (by decide) .nil)
  obtain ⟨hone, hmany⟩ := stream_composes
  obtain ⟨text, htext⟩ := hone (.element x)
  exact ⟨⟨rfl, hrun, htexts⟩, ⟨text, htext s s' rfl hrun⟩, hmany 0 _ _ htexts⟩

end MathTree.MathML

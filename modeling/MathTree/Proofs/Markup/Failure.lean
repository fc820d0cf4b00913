import Mathlib.Tactic.SplitIfs
import MathTree.Proofs.Markup.Draft

/-!
# Writing on behind a failure

A tree that cannot be written leaves its mark on the sheet.  What was opened stays open, and what
waited for a node that is refused goes on waiting, to be taken by whatever is written next
(`attribute_left_behind`).  Depth and attributes are as they were just if nothing was opened and
nothing waited (`failure_restores_iff`), and a document always leaves its own element open.
-/

namespace MathTree

open MathTree.Markup MathML

variable {t : Tree} {fault : Fault} {waiting : List Attribute} {halt : Halt}

/-! ### Where the writing of a tree breaks off -/

theorem Markup.halt_of_around {tag : String} {content : Except Halt (List Element)}
    (h : around tag waiting content = .error halt) : 0 < halt.depth := by
  cases content with
  | ok => cases h
  | error =>
    cases h
    exact Nat.succ_pos _

namespace Tree

/-- What is refused for its top breaks off before anything is opened. -/
theorem elementWith_of_refusal (h : t.refusal? = some fault) :
    t.elementWith waiting = .error ⟨fault, 0, waiting⟩ := by
  unfold refusal? at h
  cases hr : t.reading? with
  | error fault' =>
    rw [hr] at h
    cases h
    exact elementWith_of_error waiting hr
  | ok reading =>
    rw [hr] at h
    rw [elementWith_of_ok waiting hr]
    cases reading with
    | root degree radicand =>
      simp only [Reading.refusal?] at h
      split_ifs at h with hzero
      cases h
      exact if_pos hzero
    | unknown =>
      cases h
      rfl
    | _ => cases h

/-- What is not refused for its top breaks off below it, inside the element that it opens. -/
theorem depth_pos_of_not_refused (h : t.refusal? = none)
    (he : t.elementWith waiting = .error halt) : 0 < halt.depth := by
  unfold refusal? at h
  cases hr : t.reading? with
  | error =>
    rw [hr] at h
    cases h
  | ok reading =>
    rw [hr] at h
    rw [elementWith_of_ok waiting hr] at he
    cases reading with
    | unknown => cases h
    | root degree radicand =>
      simp only [Reading.refusal?] at h
      split_ifs at h with hzero
      exact halt_of_around ((if_neg hzero).symm.trans he)
    | infinity negative => cases negative <;> cases he
    | integer | real | rational | exponential | constant | avogadro | time | identifier => cases he
    | _ => exact halt_of_around he

end Tree

/-! ### What a failure names -/

namespace Markup

/-- Why something cannot be made, if it cannot. -/
def fault? {α : Type} : Except Halt α → Option Fault
  | .ok _ => none
  | .error halt => some halt.fault

variable {α : Type} {made : Except Halt Element}

@[simp]
theorem fault?_ok (a : α) : fault? (.ok a) = none := rfl

@[simp]
theorem fault?_around (tag : String) (attributes : List Attribute)
    (content : Except Halt (List Element)) : fault? (around tag attributes content) = fault? content := by
  cases content <;> rfl

@[simp]
theorem fault?_followedBy (first : Except Halt Element) (others : Except Halt (List Element)) :
    fault? (followedBy first others) = (fault? first).or (fault? others) := by
  cases first <;> cases others <;> rfl

theorem fault?_of_isOk (h : made.isOk) : fault? made = none := by
  cases made with
  | ok => rfl
  | error => cases h

theorem Writes.written_eq_error_iff {scribe : Scribe Unit} {indent : Nat} (h : Writes scribe [] made) :
    MathML.written indent scribe = .error fault ↔ fault? made = some fault := by
  specialize h .blank rfl
  rw [MathML.written]
  cases made with
  | error halt =>
    obtain ⟨lines, h⟩ := h
    simp [h, fault?]
  | ok e =>
    dsimp only at h
    simp [h]

end Markup

/-- A document fails as the element of its tree does. -/
theorem Tree.mathDocument_eq_error_iff (indent : Nat) :
    t.mathDocument indent = .error fault ↔ fault? t.element = some fault := by
  rw [mathDocument, (writes_writeDocument t).written_eq_error_iff, mathWith]
  simp

/-! ### Where a text stands -/

namespace Markup

variable {indent k : Nat} {tag : String} {attributes : List Attribute} {content : List Element}

/-- A line with more elements open around it. -/
def Line.deepen (k : Nat) (line : Line) : Line := { line with depth := line.depth + k }

theorem Line.length_text_deepen (line : Line) :
    ((line.deepen k).text indent).length = (line.text indent).length + k * indent := by
  unfold text
  split_ifs with hindent
  · rw [hindent]
    rfl
  · simp [deepen, Nat.add_mul]
    omega

theorem Line.text_deepen (h : k = 0 ∨ indent = 0) (line : Line) :
    (line.deepen k).text indent = line.text indent := by
  rcases h with rfl | rfl <;> rfl

theorem linesAll_add (h : ∀ e ∈ content, ∀ depth, e.lines (depth + k)
    = (e.lines depth).map (Line.deepen k)) (depth : Nat) :
    linesAll (depth + k) content = (linesAll depth content).map (Line.deepen k) := by
  induction content with
  | nil => rfl
  | cons e es ih =>
    rw [linesAll, linesAll, List.map_append, h e List.mem_cons_self,
      ih fun u hu => h u (List.mem_cons_of_mem _ hu)]

/-- An element deeper down has the same lines, each deeper. -/
theorem Element.lines_add (e : Element) (depth : Nat) :
    e.lines (depth + k) = (e.lines depth).map (Line.deepen k) := by
  induction e generalizing depth with
  | empty | text | number => rfl
  | around tag attributes content ih =>
    have hcontent := linesAll_add ih (depth + 1)
    rw [Nat.add_right_comm] at hcontent
    simp [lines, hcontent, Line.deepen]

/-- Depth does not count where there is no indentation. -/
theorem Element.textAt_add (h : k = 0 ∨ indent = 0) (e : Element) (depth : Nat) :
    e.textAt indent (depth + k) = e.textAt indent depth := by
  rw [textAt, lines_add, linesText, List.map_map]
  exact congrArg String.join (List.map_congr_left fun line _ => line.text_deepen h)

theorem length_linesText_deepen (lines : List Line) :
    (linesText indent (lines.map (Line.deepen k))).length
      = (linesText indent lines).length + lines.length * (k * indent) := by
  induction lines with
  | nil => simp [linesText]
  | cons line lines ih =>
    simp only [linesText, List.map_cons, String.join_cons, String.length_append,
      Line.length_text_deepen, List.length_cons, Nat.succ_mul] at ih ⊢
    omega

/-- Attributes and depth each make the text of an element longer. -/
theorem Element.length_textAt_around (others : List Attribute) (depth : Nat) :
    ((around tag (others ++ attributes) content).textAt indent (depth + k)).length
      = ((around tag attributes content).textAt indent depth).length
        + (String.join (others.map Attribute.text)).length
        + ((around tag attributes content).lines depth).length * (k * indent) := by
  have hlines : ((around tag (others ++ attributes) content).lines depth).length
      = ((around tag attributes content).lines depth).length := by simp [lines]
  have htext : ((around tag (others ++ attributes) content).textAt indent depth).length
      = ((around tag attributes content).textAt indent depth).length
        + (String.join (others.map Attribute.text)).length := by
    simp only [textAt, lines, linesText, List.map_cons, String.join_cons, String.length_append,
      Line.text, Mark.text, Mark.opening, List.map_append, String.join_append]
    split_ifs <;> simp <;> omega
  rw [textAt, lines_add, length_linesText_deepen, hlines, ← textAt, htext]

theorem Attribute.length_text_pos (a : Attribute) : 0 < a.text.length := by
  have hquote : "\"".length = 1 := rfl
  simp only [Attribute.text, String.length_append, hquote]
  omega

end Markup

/-! ### Sheets behind a failure -/

namespace MathML

variable {s s' : Sheet} {indent : Nat} {text : String}

/-- Whether writing a document on a sheet succeeds and adds a text. -/
def Adds (indent : Nat) (s : Sheet) (t : Tree) (text : String) : Prop :=
  ∃ s', (writeDocument t).run s = (.ok (), s') ∧ s'.text indent = s.text indent ++ text

/-- Whether what any document adds to a sheet is what it adds to another. -/
def AddsAlike (indent : Nat) (s s' : Sheet) : Prop :=
  ∀ t text, Adds indent s t text → Adds indent s' t text

theorem adds_iff :
    Adds indent s t text ↔ ∃ e, t.mathWith s.pending = .ok e ∧ e.textAt indent s.depth = text := by
  simp only [Adds, (writes_writeDocument t).run_eq_ok_iff rfl]
  constructor
  · rintro ⟨_, ⟨e, he, rfl⟩, htext⟩
    rw [Sheet.text_extend, String.append_right_inj] at htext
    exact ⟨e, he, htext⟩
  · rintro ⟨e, he, rfl⟩
    exact ⟨_, ⟨e, he, rfl⟩, Sheet.text_extend ..⟩

/-- Documents add the same behind a failure just if no attribute waits and no element is left open, or
none that shows. -/
theorem addsAlike_iff (hs : s.pending = []) (hdepth : s.depth ≤ s'.depth) :
    AddsAlike indent s s' ↔ s'.pending = [] ∧ (s'.depth = s.depth ∨ indent = 0) := by
  obtain ⟨k, hk⟩ := Nat.exists_eq_add_of_le hdepth
  constructor
  · intro h
    -- any document that can be written shows the difference
    let t : Tree := .leaf (.ofKind .plus)
    obtain ⟨root, hroot⟩ : ∃ root, t.element = .ok root := ⟨_, rfl⟩
    let e (waiting : List Attribute) : Element :=
      .around "math" (waiting ++ t.namespaces) [root]
    have hwith (waiting : List Attribute) : t.mathWith waiting = .ok (e waiting) :=
      Tree.mathWith_eq_ok_iff.2 ⟨root, hroot, rfl⟩
    have hadds : Adds indent s t ((e []).textAt indent s.depth) :=
      adds_iff.2 ⟨e [], by rw [hs, hwith], rfl⟩
    obtain ⟨e', he', htext⟩ := adds_iff.1 (h t _ hadds)
    rw [hwith] at he'
    cases he'
    have hlength := congrArg String.length htext
    rw [hk, Element.length_textAt_around] at hlength
    have hlines : 0 < ((Element.around "math" t.namespaces [root]).lines s.depth).length := by
      simp [Element.lines]
    have hzero : (String.join (s'.pending.map Attribute.text)).length = 0
        ∧ ((Element.around "math" t.namespaces [root]).lines s.depth).length * (k * indent) = 0 := by
      simp only [e, List.nil_append] at hlength
      omega
    constructor
    · cases hpending : s'.pending with
      | nil => rfl
      | cons a others =>
        have ha := a.length_text_pos
        have hjoin := hzero.1
        rw [hpending, List.map_cons, String.join_cons, String.length_append] at hjoin
        omega
    · have hmoved : k * indent = 0 := (Nat.mul_eq_zero.1 hzero.2).resolve_left (Nat.ne_of_gt hlines)
      rcases Nat.mul_eq_zero.1 hmoved with hzero | hindent
      · exact .inl (by omega)
      · exact .inr hindent
  · rintro ⟨hpending, h⟩ t text hadds
    obtain ⟨e, he, rfl⟩ := adds_iff.1 hadds
    refine adds_iff.2 ⟨e, by rw [hpending, ← hs, he], ?_⟩
    rw [hk]
    exact e.textAt_add (h.imp_left fun h => by omega) s.depth

theorem run_writeTree_of_error (h : (writeTree t).run s = (.error fault, s')) :
    ∃ halt, t.element = .error halt ∧ s'.depth = s.depth + halt.depth ∧ s'.pending = halt.waiting := by
  obtain ⟨halt, hmade, -, hstate⟩ := (writes_writeTree t).exists_halt rfl h
  exact ⟨halt, hmade, hstate⟩

theorem run_writeDocument_of_error (h : (writeDocument t).run s = (.error fault, s')) :
    s.depth < s'.depth := by
  obtain ⟨halt, hmade, -, hdepth, -⟩ := (writes_writeDocument t).exists_halt rfl h
  rw [hdepth]
  exact Nat.lt_add_of_pos_right (halt_of_around hmade)

/-- What a failure leaves behind: depth and attributes are restored just if the tree was refused for
its top and had no attributes, a document never closes its own element, and documents that follow are
the same just if no attribute is left waiting and no depth that shows. -/
theorem failure_restores_iff (s s' : Sheet) (hs : s.pending = []) (t : Tree) (fault : Fault) :
    ((writeTree t).run s = (.error fault, s') →
      (s'.depth = s.depth ∧ s'.pending = [] ↔ t.refusal?.isSome ∧ presentation t.head = [])) ∧
    ((writeDocument t).run s = (.error fault, s') → s.depth < s'.depth) ∧
    ((writeTree t).run s = (.error fault, s') ∨ (writeDocument t).run s = (.error fault, s') →
      ∀ indent, AddsAlike indent s s' ↔ s'.pending = [] ∧ (s'.depth = s.depth ∨ indent = 0)) := by
  refine ⟨fun h => ?_, run_writeDocument_of_error, fun h indent => addsAlike_iff hs ?_⟩
  · obtain ⟨halt, hmade, hdepth, hpending⟩ := run_writeTree_of_error h
    rw [hdepth, hpending]
    cases hrefusal : t.refusal? with
    | none =>
      have hpos := Tree.depth_pos_of_not_refused hrefusal hmade
      simp only [Option.isSome_none, Bool.false_eq_true, false_and, iff_false, not_and]
      omega
    | some refusal =>
      rw [Tree.element, Tree.elementWith_of_refusal hrefusal] at hmade
      cases hmade
      simp
  · rcases h with h | h
    · obtain ⟨halt, -, hdepth, -⟩ := run_writeTree_of_error h
      omega
    · exact Nat.le_of_lt (run_writeDocument_of_error h)

/-- A sine of nothing. -/
def emptySine (id : Option String) : Tree := .leaf { Head.ofKind (.elementary .sin) with id := id }

/-- A sum of a sine of nothing breaks off inside, and leaves its element open. -/
theorem failure_restores_emptySine :
    let fault : Fault := .arity (.elementary .sin) 1 0
    let t : Tree := .node (.ofKind .plus) [emptySine none]
    let s' : Sheet := ⟨#[⟨0, .start "apply" []⟩, ⟨1, .empty "plus" []⟩], 1, []⟩
    (Sheet.blank.pending = [] ∧ (writeTree t).run .blank = (.error fault, s') ∧
      t.refusal? = none) ∧
    ¬ (s'.depth = Sheet.blank.depth ∧ s'.pending = []) ∧
    ∀ indent, AddsAlike indent .blank s' ↔ indent = 0 := by
  intro fault t s'
  have hrun : (writeTree t).run .blank = (.error fault, s') := rfl
  obtain ⟨htree, -, hdocument⟩ := failure_restores_iff .blank s' rfl t fault
  refine ⟨⟨rfl, hrun, rfl⟩, fun h => ?_, fun indent => (hdocument (.inl hrun) indent).trans ?_⟩
  · have hrefusal := ((htree hrun).1 h).1
    cases hrefusal
  · simp [s', Sheet.blank]

/-- The identifier of a sine that could not be written is given to the document that follows. -/
theorem attribute_left_behind :
    let t := emptySine (some "i1")
    let s' : Sheet := ⟨#[], 0, [⟨"id", "i1"⟩]⟩
    let x : Tree := .leaf (.identifier "x")
    (writeTree t).run .blank = (.error (.arity (.elementary .sin) 1 0), s') ∧ s'.pending ≠ [] ∧
    Adds 0 .blank x "<math xmlns=\"http://www.w3.org/1998/Math/MathML\"><ci>x</ci></math>" ∧
    Adds 0 s' x "<math id=\"i1\" xmlns=\"http://www.w3.org/1998/Math/MathML\"><ci>x</ci></math>" ∧
    ¬ AddsAlike 0 .blank s' := by
  intro t s' x
  have hrun : (writeTree t).run .blank = (.error (.arity (.elementary .sin) 1 0), s') := rfl
  refine ⟨hrun, nofun, ⟨_, rfl, by decide⟩, ⟨_, rfl, by decide⟩, fun h => ?_⟩
  have hpending := ((addsAlike_iff rfl (Nat.zero_le _)).1 h).1
  cases hpending

end MathML

end MathTree

import MathTree.Render.Markup

/-!
# Elements

Markup in which every element is closed is a tree again, an `Element`, and its lines can be read off
it (`Element.lines`).  A scribe that does not fail writes one element (`Writes`), and one that fails
breaks off at some depth with some attributes waiting (`Halt`).  The rules of this module say so of
scribes that are put together: what stands between an opening tag and its closing one is treated from
the end, by `Closes`.
-/

namespace MathTree.Markup

/-- Markup that is complete in itself. -/
inductive Element where
  | empty (tag : String) (attributes : List Attribute)
  | text (tag : String) (attributes : List Attribute) (text : String)
  | number (attributes : List Attribute) (parts : List String)
  | around (tag : String) (attributes : List Attribute) (content : List Element)

mutual

/-- The lines of an element at a depth. -/
def Element.lines (depth : Nat) : Element → List Line
  | .empty tag attributes => [⟨depth, .empty tag attributes⟩]
  | .text tag attributes text => [⟨depth, .element tag attributes text⟩]
  | .number attributes parts => [⟨depth, .number attributes parts⟩]
  | .around tag attributes content =>
    ⟨depth, .start tag attributes⟩ :: (linesAll (depth + 1) content ++ [⟨depth, .finish tag⟩])

/-- The lines of some elements at a depth. -/
def linesAll (depth : Nat) : List Element → List Line
  | [] => []
  | e :: es => e.lines depth ++ linesAll depth es

end

/-- The text of an element that stands at a depth. -/
def Element.textAt (indent depth : Nat) (e : Element) : String := linesText indent (e.lines depth)

/-- A property of every element, if an element has it whenever all those directly in it have it. -/
@[elab_as_elim, induction_eliminator]
theorem Element.induction {P : Element → Prop} (empty : ∀ tag attributes, P (.empty tag attributes))
    (text : ∀ tag attributes text, P (.text tag attributes text))
    (number : ∀ attributes parts, P (.number attributes parts))
    (around : ∀ tag attributes content, (∀ e ∈ content, P e) → P (.around tag attributes content))
    (e : Element) : P e :=
  Element.rec (motive_1 := P) (motive_2 := fun es => ∀ e ∈ es, P e) empty text number around
    (fun _ h => absurd h List.not_mem_nil)
    (fun e es he hes u hu => by
      rcases List.mem_cons.1 hu with rfl | hu
      · exact he
      · exact hes u hu)
    e

/-- Where a scribe breaks off. -/
structure Halt where
  fault : Fault
  /-- How many elements it leaves open. -/
  depth : Nat
  /-- The attributes that it leaves waiting. -/
  waiting : List Attribute

variable {scribe rest : Scribe Unit} {waiting others : List Attribute} {tag : String}

/-! ### Sheets -/

namespace Sheet

/-- A sheet on which more has been written. -/
def extend (s : Sheet) (lines : List Line) (depth : Nat) (pending : List Attribute) : Sheet :=
  ⟨s.lines ++ lines.toArray, depth, pending⟩

variable (s : Sheet) (lines : List Line) (depth : Nat) (pending : List Attribute)

@[simp]
theorem depth_extend : (s.extend lines depth pending).depth = depth := rfl

@[simp]
theorem pending_extend : (s.extend lines depth pending).pending = pending := rfl

@[simp]
theorem extend_extend (lines' : List Line) (depth' : Nat) (pending' : List Attribute) :
    (s.extend lines depth pending).extend lines' depth' pending'
      = s.extend (lines ++ lines') depth' pending' := by
  simp [extend]

theorem extend_nil : s.extend [] depth pending = ⟨s.lines, depth, pending⟩ := by
  simp [extend]

theorem extend_singleton (line : Line) :
    s.extend [line] depth pending = ⟨s.lines.push line, depth, pending⟩ := by
  simp [extend]

end Sheet

theorem linesText_append (indent : Nat) (lines lines' : List Line) :
    linesText indent (lines ++ lines') = linesText indent lines ++ linesText indent lines' := by
  simp [linesText]

theorem Sheet.text_extend (indent : Nat) (s : Sheet) (lines : List Line) (depth : Nat)
    (pending : List Attribute) :
    (s.extend lines depth pending).text indent = s.text indent ++ linesText indent lines := by
  rw [text, extend, Array.toList_append, linesText_append, text]

/-! ### Scribes -/

theorem run_bind {α β : Type} {s : Sheet} (m : Scribe α) (k : α → Scribe β) :
    (m >>= k).run s = match (m.run s).1 with
      | .ok a => (k a).run (m.run s).2
      | .error fault => (.error fault, (m.run s).2) := by
  change (ExceptT.bindCont k (m.run s).1) (m.run s).2 = _
  cases (m.run s).1 <;> rfl

/-- Whether a scribe, on any sheet on which these attributes wait, writes this element, or breaks off
so. -/
def Writes (scribe : Scribe Unit) (waiting : List Attribute) (made : Except Halt Element) : Prop :=
  ∀ s : Sheet, s.pending = waiting → match made with
    | .ok e => scribe.run s = (.ok (), s.extend (e.lines s.depth) s.depth [])
    | .error halt => ∃ lines,
      scribe.run s = (.error halt.fault, s.extend lines (s.depth + halt.depth) halt.waiting)

/-- Whether a scribe, inside an element on which nothing waits, writes these elements and closes the
element, or breaks off so. -/
def Closes (tag : String) (scribe : Scribe Unit) (made : Except Halt (List Element)) : Prop :=
  ∀ s : Sheet, s.pending = [] → match made with
    | .ok es => scribe.run s
      = (.ok (), s.extend (linesAll s.depth es ++ [⟨s.depth - 1, .finish tag⟩]) (s.depth - 1) [])
    | .error halt => ∃ lines,
      scribe.run s = (.error halt.fault, s.extend lines (s.depth + halt.depth) halt.waiting)

/-- The element around others.  What breaks off inside leaves it open. -/
def around (tag : String) (attributes : List Attribute) :
    Except Halt (List Element) → Except Halt Element
  | .ok content => .ok (.around tag attributes content)
  | .error halt => .error { halt with depth := halt.depth + 1 }

/-- An element, and others behind it. -/
def followedBy : Except Halt Element → Except Halt (List Element) → Except Halt (List Element)
  | .ok first, .ok others => .ok (first :: others)
  | .ok _, .error halt => .error halt
  | .error halt, _ => .error halt

theorem around_eq_ok_iff {attributes : List Attribute} {content : Except Halt (List Element)}
    {e : Element} : around tag attributes content = .ok e
      ↔ ∃ es, content = .ok es ∧ e = .around tag attributes es := by
  cases content <;> simp [around, eq_comm]

theorem followedBy_eq_ok_iff {first : Except Halt Element} {others : Except Halt (List Element)}
    {es : List Element} : followedBy first others = .ok es
      ↔ ∃ e es', first = .ok e ∧ others = .ok es' ∧ es = e :: es' := by
  cases first <;> cases others <;> simp [followedBy, eq_comm]

/-- On a sheet on which the right attributes wait, a scribe succeeds just if an element is made, and
then adds its lines and leaves nothing waiting. -/
theorem Writes.run_eq_ok_iff {made : Except Halt Element} {s s' : Sheet} (h : Writes scribe waiting made)
    (hs : s.pending = waiting) : scribe.run s = (.ok (), s') ↔
      ∃ e, made = .ok e ∧ s' = s.extend (e.lines s.depth) s.depth [] := by
  specialize h s hs
  cases made with
  | ok e =>
    dsimp only at h
    rw [h]
    constructor
    · intro hrun
      cases hrun
      exact ⟨e, rfl, rfl⟩
    · rintro ⟨_, he, rfl⟩
      cases he
      rfl
  | error halt =>
    obtain ⟨lines, h⟩ := h
    rw [h]
    constructor
    · intro hrun
      cases hrun
    · rintro ⟨_, he, -⟩
      cases he

/-- A scribe that fails breaks off where it is said to. -/
theorem Writes.exists_halt {made : Except Halt Element} {s s' : Sheet} {fault : Fault}
    (h : Writes scribe waiting made) (hs : s.pending = waiting)
    (hrun : scribe.run s = (.error fault, s')) : ∃ halt, made = .error halt ∧ halt.fault = fault ∧
      s'.depth = s.depth + halt.depth ∧ s'.pending = halt.waiting := by
  specialize h s hs
  cases made with
  | ok e =>
    dsimp only at h
    rw [h] at hrun
    cases hrun
  | error halt =>
    obtain ⟨lines, h⟩ := h
    rw [h] at hrun
    cases hrun
    exact ⟨halt, rfl, rfl, rfl, rfl⟩

theorem writes_throw (fault : Fault) : Writes (throw fault) waiting (.error ⟨fault, 0, waiting⟩) := by
  rintro s rfl
  exact ⟨[], by rw [Sheet.extend_nil]; rfl⟩

/-- What takes the waiting attributes and writes one mark. -/
theorem writes_mark {e : Element} (mark : List Attribute → Mark)
    (hscribe : scribe = takePending >>= fun attributes => write (mark attributes))
    (he : ∀ depth, e.lines depth = [⟨depth, mark waiting⟩]) : Writes scribe waiting (.ok e) := by
  rintro s rfl
  subst hscribe
  dsimp only
  rw [he, Sheet.extend_singleton]
  rfl

theorem writes_emptyElement : Writes (emptyElement tag) waiting (.ok (.empty tag waiting)) :=
  writes_mark (fun attributes => .empty tag attributes) rfl fun _ => rfl

theorem writes_textElement (text : String) :
    Writes (textElement tag others text) waiting (.ok (.text tag (waiting ++ others) text)) :=
  writes_mark (fun attributes => .element tag (attributes ++ others) text) rfl fun _ => rfl

theorem writes_numberElement (parts : List String) :
    Writes (numberElement others parts) waiting (.ok (.number (waiting ++ others) parts)) :=
  writes_mark (fun attributes => .number (attributes ++ others) parts) rfl fun _ => rfl

theorem writes_empty : Writes (write (.empty tag [])) [] (.ok (.empty tag [])) := by
  intro s hs
  dsimp only
  rw [Element.lines, Sheet.extend_singleton, ← hs]
  rfl

/-- What is about to be written waits for its own attributes. -/
theorem Writes.setPending {made : Except Halt Element} (h : Writes scribe others made) :
    Writes (setPending others >>= fun _ => scribe) waiting made := by
  rintro s -
  have hrun : (Markup.setPending others >>= fun _ => scribe).run s
      = scribe.run (s.extend [] s.depth others) := by
    rw [Sheet.extend_nil]
    rfl
  specialize h (s.extend [] s.depth others) rfl
  rw [hrun]
  cases made with
  | error halt =>
    obtain ⟨lines, h⟩ := h
    exact ⟨lines, by simpa using h⟩
  | ok e => simpa using h

theorem closes_closeElement : Closes tag (closeElement tag) (.ok []) := by
  intro s hs
  dsimp only
  rw [linesAll, List.nil_append, Sheet.extend_singleton, ← hs]
  rfl

theorem Closes.cons {first : Except Halt Element} {others : Except Halt (List Element)}
    (h : Writes scribe [] first) (h' : Closes tag rest others) :
    Closes tag (scribe >>= fun _ => rest) (followedBy first others) := by
  intro s hs
  specialize h s hs
  rw [run_bind]
  cases first with
  | error halt =>
    obtain ⟨lines, h⟩ := h
    exact ⟨lines, by rw [h]⟩
  | ok e =>
    dsimp only at h
    specialize h' (s.extend (e.lines s.depth) s.depth []) rfl
    rw [h]
    cases others with
    | error halt =>
      obtain ⟨lines, h'⟩ := h'
      exact ⟨e.lines s.depth ++ lines, by simpa using h'⟩
    | ok es => simpa [followedBy, linesAll] using h'

theorem writes_openElement {content : Except Halt (List Element)} (others : List Attribute)
    (h : Closes tag rest content) :
    Writes (openElement tag others >>= fun _ => rest) waiting
      (around tag (waiting ++ others) content) := by
  rintro s rfl
  let line : Line := ⟨s.depth, .start tag (s.pending ++ others)⟩
  have hopen : (openElement tag others).run s = (.ok (), s.extend [line] (s.depth + 1) []) := by
    rw [Sheet.extend_singleton]
    rfl
  specialize h (s.extend [line] (s.depth + 1) []) rfl
  rw [run_bind, hopen]
  cases content with
  | error halt =>
    obtain ⟨lines, h⟩ := h
    refine ⟨line :: lines, ?_⟩
    simpa [Nat.add_assoc, Nat.add_comm 1] using h
  | ok es => simpa [around, Element.lines] using h

/-- A bare tag does not take what waits, so nothing may wait. -/
theorem writes_openBare {content : Except Halt (List Element)} (h : Closes tag rest content) :
    Writes (openBare tag >>= fun _ => rest) [] (around tag [] content) := by
  intro s hs
  have hopen : (openBare tag).run s = (openElement tag []).run s := by
    obtain ⟨lines, depth, pending⟩ := s
    cases hs
    rfl
  rw [run_bind, hopen, ← run_bind]
  exact writes_openElement [] h s hs

end MathTree.Markup

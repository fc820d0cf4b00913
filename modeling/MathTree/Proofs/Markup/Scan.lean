import MathTree.Proofs.Markup.Proper
import MathTree.Proofs.Text.Entity
import Mathlib.Data.List.TakeWhile

/-!
# Reading markup

A `Scan` reads markup without indentation sign by sign.  It holds the elements that are open, the
innermost first, and the signs since the last angle bracket: at `<` they are a run of text, at `>` the
body of a tag.  Inside the body, a `Quoting` reads attributes from quote to quote.  The text of a
proper element is read back as the tree of its tags (`Element.xml`), whatever was read before it
(`Scan.after_textAt`).
-/

namespace MathTree

open MathTree.Number MathTree.Markup

namespace Markup

theorem all_of_isLabel {text : String} (h : isLabel text) : ∀ c ∈ text.toList, isLabelChar c := by
  simp only [isLabel, Bool.and_eq_true, List.all_eq_true] at h
  exact h.1

/-! ### Attributes -/

/-- The reading of attributes: those that are read, the name of one whose value is being read, and the
signs since the last quote. -/
structure Quoting where
  done : List Attribute
  name : Option String
  held : List Char

namespace Quoting

def blank : Quoting := ⟨[], none, []⟩

def step (s : Quoting) (c : Char) : Quoting :=
  if c = '"' then
    match s.name with
    | none => ⟨s.done, some (String.ofList (s.held.filter isLabelChar)), []⟩
    | some name => ⟨s.done ++ [⟨name, String.ofList (Text.unescape s.held)⟩], none, []⟩
  else ⟨s.done, s.name, s.held ++ [c]⟩

def run (s : Quoting) (signs : List Char) : Quoting := signs.foldl step s

variable {s : Quoting} {done : List Attribute} {name : Option String} {held signs : List Char}

theorem run_cons (c : Char) : s.run (c :: signs) = (s.step c).run signs := rfl

theorem run_append (signs' : List Char) : s.run (signs ++ signs') = (s.run signs).run signs' :=
  List.foldl_append

theorem run_of_not_mem (h : ∀ c ∈ signs, c ≠ '"') :
    run ⟨done, name, held⟩ signs = ⟨done, name, held ++ signs⟩ := by
  induction signs generalizing held with
  | nil => simp [run]
  | cons c signs ih =>
    have hstep : step ⟨done, name, held⟩ c = ⟨done, name, held ++ [c]⟩ :=
      if_neg (h c List.mem_cons_self)
    rw [run, List.foldl_cons, hstep, ← run, ih fun d hd => h d (List.mem_cons_of_mem _ hd),
      List.append_assoc]
    rfl

/-- An attribute is read from its text. -/
theorem run_text (a : Attribute) (hname : isLabel a.name) :
    run ⟨done, none, []⟩ a.text.toList = ⟨done ++ [a], none, []⟩ := by
  have hlabel : ∀ c ∈ a.name.toList, isLabelChar c := all_of_isLabel hname
  have htext : a.text.toList
      = ((' ' :: a.name.toList ++ ['=']) ++ '"' :: (Text.escape a.value).toList) ++ ['"'] := by
    simp [Attribute.text]
  have hbefore : ∀ c ∈ ' ' :: a.name.toList ++ ['='], c ≠ '"' := by
    rintro c hc rfl
    simp only [List.cons_append, List.mem_cons, List.mem_append, List.not_mem_nil, or_false] at hc
    rcases hc with hc | hc | hc
    · cases hc
    · cases hlabel _ hc
    · cases hc
  have hvalue : ∀ c ∈ (Text.escape a.value).toList, c ≠ '"' := fun c hc =>
    (Text.not_mem_escape a.value c hc).2.2
  have hfilter : (' ' :: a.name.toList ++ ['=']).filter isLabelChar = a.name.toList := by
    have hsign : ['='].filter isLabelChar = [] := rfl
    rw [List.filter_append, List.filter_cons_of_neg (by decide), List.filter_eq_self.2 hlabel, hsign,
      List.append_nil]
  have hopen (signs : List Char) : run ⟨done, none, ' ' :: a.name.toList ++ ['=']⟩ ('"' :: signs)
      = run ⟨done, some a.name, []⟩ signs := by
    rw [run_cons]
    simp only [step, if_true, hfilter, String.ofList_toList]
  have hclose : run ⟨done, some a.name, (Text.escape a.value).toList⟩ ['"']
      = ⟨done ++ [a], none, []⟩ := by
    rw [run_cons]
    simp only [step, if_true, Text.unescape_escape]
    rfl
  rw [htext, run_append, run_append, run_of_not_mem hbefore, List.nil_append, hopen,
    run_of_not_mem hvalue, List.nil_append, hclose]

theorem run_join {attributes : List Attribute} (h : ∀ a ∈ attributes, isLabel a.name) :
    run ⟨done, none, []⟩ (String.join (attributes.map Attribute.text)).toList
      = ⟨done ++ attributes, none, []⟩ := by
  induction attributes generalizing done with
  | nil => simp [run]
  | cons a attributes ih =>
    rw [List.map_cons, String.join_cons, String.toList_append, run_append,
      run_text a (h a List.mem_cons_self), ih fun b hb => h b (List.mem_cons_of_mem _ hb),
      List.append_assoc]
    rfl

end Quoting

/-! ### Tags -/

/-- What the tag of an element says, and the runs of text directly in the element. -/
structure Label where
  tag : String
  attributes : List Attribute
  runs : List String
  deriving DecidableEq, Repr

/-- The elements of a text. -/
abbrev Xml := Rose Label

namespace Xml

/-- An element with one more element in it. -/
def add : Xml → Xml → Xml
  | .node l xs, x => .node l (xs ++ [x])

/-- An element with one more run of text in it, unless that is empty. -/
def say : Xml → List Char → Xml
  | .node l xs, signs =>
    if signs = [] then .node l xs
    else .node { l with runs := l.runs ++ [String.ofList (Text.unescape signs)] } xs

end Xml

/-- The reading of markup: the elements that are open, the innermost first, and the signs since the
last bracket. -/
structure Scan where
  stack : List Xml
  held : List Char

namespace Scan

/-- The innermost element with a run of text. -/
def say : List Xml → List Char → List Xml
  | x :: stack, signs => x.say signs :: stack
  | [], _ => []

/-- The innermost element is done. -/
def close : List Xml → List Xml
  | x :: y :: stack => y.add x :: stack
  | stack => stack

/-- Takes the body of a tag.  One without a name in front closes an element, and one with something
behind its attributes is an element by itself. -/
def take (stack : List Xml) (body : List Char) : List Xml :=
  let name := body.takeWhile isLabelChar
  let s := Quoting.blank.run (body.dropWhile isLabelChar)
  let opened := .node ⟨String.ofList name, s.done, []⟩ [] :: stack
  if name = [] then close stack else if s.held = [] then opened else close opened

def step (s : Scan) (c : Char) : Scan :=
  if c = '<' then ⟨say s.stack s.held, []⟩
  else if c = '>' then ⟨take s.stack s.held, []⟩
  else ⟨s.stack, s.held ++ [c]⟩

/-- The scan behind a text. -/
def after (s : Scan) (text : String) : Scan := text.toList.foldl step s

variable {s : Scan} {stack : List Xml} {x : Xml} {held : List Char} {tag a b : String}
  {attributes : List Attribute}

theorem after_append : s.after (a ++ b) = (s.after a).after b := by
  rw [after, String.toList_append, List.foldl_append]
  rfl

/-- Whether a text has no angle brackets. -/
def Unbracketed (text : String) : Prop := ∀ c ∈ text.toList, c ≠ '<' ∧ c ≠ '>'

theorem unbracketed_of_all (h : a.toList.all fun c => c ≠ '<' ∧ c ≠ '>') : Unbracketed a := by
  intro c hc
  simpa using List.all_eq_true.1 h c hc

theorem after_of_unbracketed (h : Unbracketed a) :
    after ⟨stack, held⟩ a = ⟨stack, held ++ a.toList⟩ := by
  have hrun (signs : List Char) (held : List Char) (hsigns : ∀ c ∈ signs, c ≠ '<' ∧ c ≠ '>') :
      signs.foldl step ⟨stack, held⟩ = ⟨stack, held ++ signs⟩ := by
    induction signs generalizing held with
    | nil => simp
    | cons c signs ih =>
      obtain ⟨hlt, hgt⟩ := hsigns c List.mem_cons_self
      have hstep : step ⟨stack, held⟩ c = ⟨stack, held ++ [c]⟩ := by
        rw [step, if_neg hlt, if_neg hgt]
      rw [List.foldl_cons, hstep, ih _ fun d hd => hsigns d (List.mem_cons_of_mem _ hd),
        List.append_assoc]
      rfl
  exact hrun a.toList held h

theorem after_open : after ⟨stack, held⟩ "<" = ⟨say stack held, []⟩ := rfl

theorem after_close : after ⟨stack, held⟩ ">" = ⟨take stack held, []⟩ := rfl

/-- A tag ends a run of text, and its body is taken. -/
theorem after_tag (h : Unbracketed a) :
    after ⟨stack, held⟩ ("<" ++ a ++ ">") = ⟨take (say stack held) a.toList, []⟩ := by
  rw [after_append, after_append, after_open, after_of_unbracketed h, after_close, List.nil_append]

theorem say_nil (stack : List Xml) : say stack [] = stack := by
  rcases stack with _ | ⟨⟨l, xs⟩, stack⟩ <;> rfl

/-! ### Bodies of tags -/

theorem unbracketed_of_isLabel (h : isLabel tag) : Unbracketed tag := by
  intro c hc
  have hlabel := all_of_isLabel h c hc
  constructor <;> rintro rfl <;> cases hlabel

theorem unbracketed_append (ha : Unbracketed a) (hb : Unbracketed b) : Unbracketed (a ++ b) := by
  intro c hc
  rw [String.toList_append, List.mem_append] at hc
  exact hc.elim (ha c) (hb c)

theorem unbracketed_escape (text : String) : Unbracketed (Text.escape text) := fun c hc =>
  ⟨(Text.not_mem_escape text c hc).1, (Text.not_mem_escape text c hc).2.1⟩

theorem unbracketed_opening (htag : isLabel tag) (h : Distinct attributes) :
    Unbracketed (Mark.opening tag attributes) := by
  have hjoin (l : List Attribute) (hl : ∀ a ∈ l, isLabel a.name) :
      Unbracketed (String.join (l.map Attribute.text)) := by
    induction l with
    | nil => exact nofun
    | cons a l ih =>
      have hname := unbracketed_of_isLabel (hl a List.mem_cons_self)
      have hvalue := unbracketed_escape a.value
      have hrest := ih fun b hb => hl b (List.mem_cons_of_mem _ hb)
      rw [List.map_cons, String.join_cons]
      have hblank : Unbracketed " " := unbracketed_of_all rfl
      have hequals : Unbracketed "=\"" := unbracketed_of_all rfl
      have hquote : Unbracketed "\"" := unbracketed_of_all rfl
      exact unbracketed_append (unbracketed_append (unbracketed_append (unbracketed_append
        (unbracketed_append hblank hname) hequals) hvalue) hquote) hrest
  exact unbracketed_append (unbracketed_of_isLabel htag) (hjoin attributes h.label)

/-- The name in front of a tag and its attributes are read from its body. -/
theorem take_opening (htag : isLabel tag) (h : Distinct attributes) {ending : List Char}
    (hending : ending = [] ∨ ending = ['/']) :
    take stack ((Mark.opening tag attributes).toList ++ ending)
      = if ending = [] then .node ⟨tag, attributes, []⟩ [] :: stack
        else close (.node ⟨tag, attributes, []⟩ [] :: stack) := by
  let rest := (String.join (attributes.map Attribute.text)).toList ++ ending
  have hbody : (Mark.opening tag attributes).toList ++ ending = tag.toList ++ rest := by
    simp [Mark.opening, rest]
  have hrest : rest.takeWhile isLabelChar = [] ∧ rest.dropWhile isLabelChar = rest := by
    cases attributes with
    | nil => rcases hending with rfl | rfl <;> decide
    | cons a others =>
      obtain ⟨l, hl⟩ : ∃ l, rest = ' ' :: l := by simp [rest, Attribute.text]
      rw [hl]
      exact ⟨List.takeWhile_cons_of_neg (by decide), List.dropWhile_cons_of_neg (by decide)⟩
  have hlabel := all_of_isLabel htag
  have hname : (tag.toList ++ rest).takeWhile isLabelChar = tag.toList := by
    rw [List.takeWhile_append_of_pos hlabel, hrest.1, List.append_nil]
  have hbehind : (tag.toList ++ rest).dropWhile isLabelChar = rest := by
    rw [List.dropWhile_append_of_pos hlabel, hrest.2]
  have hrun : Quoting.blank.run rest = ⟨attributes, none, ending⟩ := by
    rw [Quoting.run_append, Quoting.blank, Quoting.run_join h.label, List.nil_append]
    refine Quoting.run_of_not_mem fun c hc => ?_
    rcases hending with rfl | rfl
    · cases hc
    · rw [List.mem_singleton.1 hc]
      decide
  have hne : tag.toList ≠ [] := by
    rintro hnil
    rw [isLabel, hnil] at htag
    cases htag
  rw [hbody, take, hname, hbehind, hrun, String.ofList_toList, if_neg hne]

theorem take_start (htag : isLabel tag) (h : Distinct attributes) :
    take stack (Mark.opening tag attributes).toList = .node ⟨tag, attributes, []⟩ [] :: stack := by
  have hbody := List.append_nil (Mark.opening tag attributes).toList
  rw [← hbody, take_opening htag h (.inl rfl), if_pos rfl]

theorem take_empty (htag : isLabel tag) (h : Distinct attributes) :
    take stack (Mark.opening tag attributes ++ "/").toList
      = close (.node ⟨tag, attributes, []⟩ [] :: stack) := by
  rw [String.toList_append]
  exact take_opening htag h (.inr rfl)

theorem take_finish (stack : List Xml) (tag : String) :
    take stack ("/" ++ tag).toList = close stack := by
  have hname : ("/" ++ tag).toList.takeWhile isLabelChar = [] := by
    rw [String.toList_append]
    rfl
  rw [take, hname, if_pos rfl]

end Scan

/-! ### Elements -/

/-- A number with one more part in it, and others behind that. -/
def Xml.number (x : Xml) (part : String) : List String → Xml
  | [] => x.say (" " ++ part ++ " ").toList
  | next :: parts =>
    ((x.say (" " ++ part ++ " ").toList).add (.node ⟨"sep", [], []⟩ [])).number next parts

mutual

/-- The tags and texts of an element. -/
def Element.xml : Element → Xml
  | .empty tag attributes => .node ⟨tag, attributes, []⟩ []
  | .text tag attributes text =>
    Xml.say (.node ⟨tag, attributes, []⟩ []) (Text.escape text).toList
  | .number attributes [] => .node ⟨"cn", attributes, []⟩ []
  | .number attributes (part :: parts) => Xml.number (.node ⟨"cn", attributes, []⟩ []) part parts
  | .around tag attributes content => .node ⟨tag, attributes, []⟩ (xmlAll content)

/-- The tags and texts of some elements. -/
def xmlAll : List Element → List Xml
  | [] => []
  | e :: es => e.xml :: xmlAll es

end

namespace Scan

variable {stack : List Xml} {x : Xml} {held : List Char} {tag a : String}
  {attributes : List Attribute}

theorem textAt_of_mark {e : Element} {depth : Nat} {mark : Mark}
    (h : e.lines depth = [⟨depth, mark⟩]) : e.textAt 0 depth = mark.text := by
  rw [Element.textAt, h]
  simp [linesText, Line.text]

theorem unbracketed_blank : Unbracketed " " := unbracketed_of_all rfl

theorem unbracketed_slash : Unbracketed "/" := unbracketed_of_all rfl

theorem unbracketed_of_isPlain (h : IsPlain a) : Unbracketed a := by
  intro c hc
  have hplain := h c hc
  constructor <;> rintro rfl <;> cases hplain

theorem after_unbracketed_append (h : Unbracketed a) :
    after ⟨stack, held⟩ (a ++ b) = after ⟨stack, held ++ a.toList⟩ b := by
  rw [after_append, after_of_unbracketed h]

theorem after_start_append (htag : isLabel tag) (h : Distinct attributes) :
    after ⟨stack, []⟩ ((Mark.start tag attributes).text ++ b)
      = after ⟨.node ⟨tag, attributes, []⟩ [] :: stack, []⟩ b := by
  rw [after_append, Mark.text, after_tag (unbracketed_opening htag h), say_nil, take_start htag h]

theorem after_finish (htag : isLabel tag) :
    after ⟨stack, held⟩ (Mark.finish tag).text = ⟨close (say stack held), []⟩ := by
  have htext : (Mark.finish tag).text = "<" ++ ("/" ++ tag) ++ ">" := by
    apply String.toList_inj.1
    simp [Mark.text]
  rw [htext, after_tag (unbracketed_append unbracketed_slash (unbracketed_of_isLabel htag)),
    take_finish]

theorem after_empty_append (htag : isLabel tag) (h : Distinct attributes) :
    after ⟨stack, held⟩ ((Mark.empty tag attributes).text ++ b)
      = after ⟨close (.node ⟨tag, attributes, []⟩ [] :: say stack held), []⟩ b := by
  have htext : (Mark.empty tag attributes).text
      = "<" ++ (Mark.opening tag attributes ++ "/") ++ ">" := by
    apply String.toList_inj.1
    simp [Mark.text]
  rw [after_append, htext,
    after_tag (unbracketed_append (unbracketed_opening htag h) unbracketed_slash),
    take_empty htag h]

/-- The parts of a number, with empty elements between them. -/
theorem after_number {part : String} {parts : List String} (h : ∀ p ∈ part :: parts, IsPlain p) :
    after ⟨x :: stack, [' ']⟩
        (" <sep/> ".intercalate (part :: parts) ++ (" " ++ (Mark.finish "cn").text))
      = ⟨close (x.number part parts :: stack), []⟩ := by
  have hpart := unbracketed_of_isPlain (h part List.mem_cons_self)
  have hpadded : [' '] ++ part.toList ++ " ".toList = (" " ++ part ++ " ").toList := by simp
  induction parts generalizing part x with
  | nil =>
    have htext : " <sep/> ".intercalate [part] = part := by simp
    rw [htext, after_unbracketed_append hpart, after_unbracketed_append unbracketed_blank, hpadded,
      after_finish rfl]
    rfl
  | cons next parts ih =>
    have hrest : ∀ p ∈ next :: parts, IsPlain p := fun p hp => h p (List.mem_cons_of_mem _ hp)
    have htext : " <sep/> ".intercalate (part :: next :: parts) ++ (" " ++ (Mark.finish "cn").text)
        = part ++ (" " ++ ((Mark.empty "sep" []).text ++ (" " ++
          (" <sep/> ".intercalate (next :: parts) ++ (" " ++ (Mark.finish "cn").text))))) := by
      have hsep : " <sep/> " = " " ++ ((Mark.empty "sep" []).text ++ " ") := rfl
      rw [String.intercalate_cons_cons]
      nth_rewrite 1 [hsep]
      simp only [String.append_assoc]
    rw [htext, after_unbracketed_append hpart, after_unbracketed_append unbracketed_blank, hpadded,
      after_empty_append rfl distinct_nil, after_unbracketed_append unbracketed_blank]
    exact ih hrest (unbracketed_of_isPlain (hrest next List.mem_cons_self)) (by simp)

/-- Elements that are each added to the innermost one that is open are added to it in order. -/
theorem after_linesAll_append {content : List Element} {depth : Nat}
    (h : ∀ e ∈ content, ∀ (x : Xml) (stack : List Xml),
      after ⟨x :: stack, []⟩ (e.textAt 0 depth) = ⟨x.add e.xml :: stack, []⟩)
    (l : Label) (xs : List Xml) (b : String) :
    after ⟨.node l xs :: stack, []⟩ (linesText 0 (linesAll depth content) ++ b)
      = after ⟨.node l (xs ++ xmlAll content) :: stack, []⟩ b := by
  induction content generalizing xs with
  | nil => simp [linesAll, linesText, xmlAll]
  | cons e es ih =>
    rw [linesAll, linesText_append, String.append_assoc, after_append, ← Element.textAt,
      h e List.mem_cons_self, Xml.add, ih fun u hu => h u (List.mem_cons_of_mem _ hu), xmlAll,
      List.append_assoc]
    rfl

/-- Read behind whatever was read before, the text of a proper element adds the element to the
innermost one that is open. -/
theorem after_textAt {e : Element} (h : e.Proper) (depth : Nat) :
    after ⟨x :: stack, []⟩ (e.textAt 0 depth) = ⟨x.add e.xml :: stack, []⟩ := by
  induction h generalizing x stack depth with
  | @empty tag attributes htag hattributes =>
    have hmark : (Element.empty tag attributes).textAt 0 depth = _ := textAt_of_mark rfl
    have htext : (Mark.empty tag attributes).text = (Mark.empty tag attributes).text ++ "" :=
      String.append_empty.symm
    rw [hmark, htext, after_empty_append htag hattributes, say_nil]
    rfl
  | @text tag text attributes htag hattributes =>
    have hmark : (Element.text tag attributes text).textAt 0 depth = _ := textAt_of_mark rfl
    have htext : (Mark.element tag attributes text).text
        = (Mark.start tag attributes).text ++ (Text.escape text ++ (Mark.finish tag).text) := by
      simp [Mark.text, String.append_assoc]
    rw [hmark, htext, after_start_append htag hattributes,
      after_unbracketed_append (unbracketed_escape _), after_finish htag, List.nil_append]
    rfl
  | @number attributes part parts hattributes hparts =>
    have hmark : (Element.number attributes (part :: parts)).textAt 0 depth = _ := textAt_of_mark rfl
    have htext : (Mark.number attributes (part :: parts)).text
        = (Mark.start "cn" attributes).text ++ (" " ++
          (" <sep/> ".intercalate (part :: parts) ++ (" " ++ (Mark.finish "cn").text))) := by
      apply String.toList_inj.1
      simp [Mark.text]
    rw [hmark, htext, after_start_append rfl hattributes, after_unbracketed_append unbracketed_blank]
    exact after_number hparts
  | @around tag attributes content htag hattributes hcontent ih =>
    have htext : (Element.around tag attributes content).textAt 0 depth
        = (Mark.start tag attributes).text ++
          (linesText 0 (linesAll (depth + 1) content) ++ (Mark.finish tag).text) := by
      simp [Element.textAt, Element.lines, linesText, Line.text]
    rw [htext, after_start_append htag hattributes,
      after_linesAll_append fun e he _ _ => ih e he (depth + 1), after_finish htag]
    rfl

end Scan

/-- The element that a text is. -/
def Xml.read (text : String) : Xml :=
  match (Scan.after ⟨[.node ⟨"", [], []⟩ []], []⟩ text).stack with
  | [.node _ (x :: _)] => x
  | _ => .node ⟨"", [], []⟩ []

theorem Xml.read_textAt {e : Element} (h : e.Proper) : Xml.read (e.textAt 0 0) = e.xml := by
  rw [Xml.read, Scan.after_textAt h]
  rfl

end Markup

end MathTree

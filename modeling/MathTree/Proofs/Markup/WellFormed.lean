import MathTree.Proofs.Markup.Proper

/-!
# Well-formed markup

The grammar of markup as it is read: `IsElement tag text` says that a text is one element, from its
opening tag to the tag that closes it, `IsContent` what stands between the two, `IsAttributes` what
stands in an opening tag, and `IsData` what is neither tag nor quote.  Content MathML is one element,
with whatever indentation and whatever is in the tree (`Tree.markup_isElement`).
-/

namespace MathTree

open MathTree.Number MathTree.Markup

namespace Markup

/-! ### The grammar -/

/-- Text that cannot be taken for markup: no angle bracket and no double quote, and each ampersand
begins one of the five entities. -/
inductive IsData : String → Prop
  | empty : IsData ""
  | char {c : Char} {text : String} (hc : c ∉ ['<', '>', '"', '&']) (h : IsData text) :
    IsData (String.singleton c ++ text)
  | entity (entity : String) {text : String}
    (hentity : entity ∈ ["&amp;", "&lt;", "&gt;", "&quot;", "&apos;"]) (h : IsData text) :
    IsData (entity ++ text)

/-- Attributes with their values in double quotes, of these names, no two the same. -/
inductive IsAttributes : List String → String → Prop
  | nil : IsAttributes [] ""
  | cons {name value others : String} {names : List String} (hname : isLabel name)
    (hvalue : IsData value) (hnew : name ∉ names) (h : IsAttributes names others) :
    IsAttributes (name :: names) (" " ++ name ++ "=\"" ++ value ++ "\"" ++ others)

mutual

/-- One element, with its tag. -/
inductive IsElement : String → String → Prop
  | empty {tag attributes : String} {names : List String} (htag : isLabel tag)
    (h : IsAttributes names attributes) : IsElement tag ("<" ++ tag ++ attributes ++ "/>")
  | around {tag attributes content : String} {names : List String} (htag : isLabel tag)
    (h : IsAttributes names attributes) (hcontent : IsContent content) :
    IsElement tag ("<" ++ tag ++ attributes ++ ">" ++ content ++ "</" ++ tag ++ ">")

/-- What stands in an element: data and elements in any order. -/
inductive IsContent : String → Prop
  | data {text : String} (h : IsData text) : IsContent text
  | element {tag text : String} (h : IsElement tag text) : IsContent text
  | append {a b : String} (ha : IsContent a) (hb : IsContent b) : IsContent (a ++ b)

end

/-! ### Data -/

theorem ofList_cons (c : Char) (l : List Char) :
    String.ofList (c :: l) = String.singleton c ++ String.ofList l := by
  rw [String.singleton_eq_ofList, ← String.ofList_append]
  rfl

theorem isData_ofList {l : List Char} (h : ∀ c ∈ l, c ∉ ['<', '>', '"', '&']) :
    IsData (String.ofList l) := by
  induction l with
  | nil => exact .empty
  | cons c l ih =>
    rw [ofList_cons]
    exact .char (h c List.mem_cons_self) (ih fun d hd => h d (List.mem_cons_of_mem _ hd))

theorem isData_of_isPlain {text : String} (h : IsPlain text) : IsData text := by
  have hspecial : ['<', '>', '"', '&'].all fun c => ¬ isPlainChar c := rfl
  have hdata : IsData (String.ofList text.toList) := isData_ofList fun c hc hmem => by
    simpa [h c hc] using List.all_eq_true.1 hspecial c hmem
  rwa [String.ofList_toList] at hdata

theorem IsData.entityOf {text : String} (h : IsData text) (c : Char) :
    IsData (String.ofList (Text.entity c) ++ text) := by
  unfold Text.entity
  split
  · exact .entity "&amp;" (by decide) h
  · exact .entity "&lt;" (by decide) h
  · exact .entity "&gt;" (by decide) h
  · exact .entity "&quot;" (by decide) h
  · exact .entity "&apos;" (by decide) h
  next hamp hlt hgt hquot _ =>
    refine .char (fun hc => ?_) h
    simp only [List.mem_cons, List.not_mem_nil, or_false] at hc
    rcases hc with hc | hc | hc | hc
    · exact hlt hc
    · exact hgt hc
    · exact hquot hc
    · exact hamp hc

theorem isData_escape (text : String) : IsData (Text.escape text) := by
  have hlist (l : List Char) : IsData (String.ofList (l.flatMap Text.entity)) := by
    induction l with
    | nil => exact .empty
    | cons c l ih =>
      rw [List.flatMap_cons, String.ofList_append]
      exact ih.entityOf c
  exact hlist text.toList

/-! ### Lines -/

section Lines

variable {attributes : List Attribute} {tag content : String} {indent depth : Nat}

theorem isAttributes_join (h : Distinct attributes) :
    IsAttributes (attributes.map Attribute.name) (String.join (attributes.map Attribute.text)) := by
  induction attributes with
  | nil => exact .nil
  | cons a others ih =>
    obtain ⟨hnodup, hlabel⟩ := h
    rw [List.map_cons, List.nodup_cons] at hnodup
    rw [List.map_cons, List.map_cons, String.join_cons]
    exact .cons (hlabel a List.mem_cons_self) (isData_escape _) hnodup.1
      (ih ⟨hnodup.2, fun b hb => hlabel b (List.mem_cons_of_mem _ hb)⟩)

theorem isElement_opening (htag : isLabel tag) (h : Distinct attributes)
    (hcontent : IsContent content) :
    IsElement tag ("<" ++ Mark.opening tag attributes ++ ">" ++ content ++ "</" ++ tag ++ ">") := by
  rw [Mark.opening, ← String.append_assoc]
  exact .around htag (isAttributes_join h) hcontent

theorem isElement_empty (htag : isLabel tag) (h : Distinct attributes) :
    IsElement tag ("<" ++ Mark.opening tag attributes ++ "/>") := by
  rw [Mark.opening, ← String.append_assoc]
  exact .empty htag (isAttributes_join h)

/-- Blanks and line ends. -/
theorem isContent_of_blank {text : String} (h : ∀ c ∈ text.toList, c = ' ' ∨ c = '\n') :
    IsContent text := by
  have hdata : IsData (String.ofList text.toList) := isData_ofList fun c hc => by
    rcases h c hc with rfl | rfl <;> decide
  rw [String.ofList_toList] at hdata
  exact .data hdata

/-- The parts of a number, with empty elements between them. -/
theorem isContent_intercalate {parts : List String} (h : ∀ part ∈ parts, IsPlain part) :
    IsContent (" <sep/> ".intercalate parts) := by
  have hblank : IsContent " " := isContent_of_blank (by simp)
  have hsep : IsElement "sep" "<sep/>" := .empty rfl .nil
  induction parts with
  | nil => exact .data .empty
  | cons part parts ih =>
    have hpart : IsContent part := .data (isData_of_isPlain (h part List.mem_cons_self))
    cases parts with
    | nil => simpa using hpart
    | cons part' parts =>
      rw [String.intercalate_cons_cons]
      have hbetween : IsContent (" " ++ "<sep/>" ++ " ") :=
        (hblank.append (.element hsep)).append hblank
      exact (hpart.append hbetween).append (ih fun p hp => h p (List.mem_cons_of_mem _ hp))

end Lines

/-! ### Elements -/

/-- What stands before a mark on its line. -/
def margin (indent depth : Nat) : String :=
  if indent = 0 then "" else String.ofList (List.replicate (depth * indent) ' ')

/-- What stands behind a mark on its line. -/
def lineEnd (indent : Nat) : String := if indent = 0 then "" else "\n"

theorem Line.text_eq (indent : Nat) (line : Line) :
    line.text indent = margin indent line.depth ++ line.mark.text ++ lineEnd indent := by
  unfold text margin lineEnd
  split_ifs <;> simp

theorem isContent_margin (indent depth : Nat) : IsContent (margin indent depth) := by
  refine isContent_of_blank fun c hc => .inl ?_
  unfold margin at hc
  split_ifs at hc
  · cases hc
  · rw [String.toList_ofList] at hc
    exact List.eq_of_mem_replicate hc

theorem isContent_lineEnd (indent : Nat) : IsContent (lineEnd indent) := by
  unfold lineEnd
  split_ifs <;> exact isContent_of_blank (by simp)

/-- The tag of an element. -/
def Element.tag : Element → String
  | .empty tag _ | .text tag _ _ | .around tag _ _ => tag
  | .number _ _ => "cn"

/-- Whether a text is an element on lines of its own. -/
def Stands (indent depth : Nat) (e : Element) : Prop :=
  ∃ text, e.textAt indent depth = margin indent depth ++ text ++ lineEnd indent ∧
    IsElement e.tag text

variable {indent depth : Nat} {e : Element}

theorem stands_of_lines {mark : Mark} (hlines : e.lines depth = [⟨depth, mark⟩])
    (h : IsElement e.tag mark.text) : Stands indent depth e := by
  refine ⟨mark.text, ?_, h⟩
  rw [Element.textAt, hlines, linesText, List.map_singleton, Line.text_eq]
  simp

theorem isContent_linesAll {content : List Element}
    (h : ∀ e ∈ content, Stands indent depth e) :
    IsContent (linesText indent (linesAll depth content)) := by
  induction content with
  | nil => exact .data .empty
  | cons e es ih =>
    obtain ⟨text, htext, helement⟩ := h e List.mem_cons_self
    rw [linesAll, linesText_append, ← Element.textAt, htext]
    have hcontent := ((isContent_margin indent depth).append (.element helement)).append
      (isContent_lineEnd indent)
    exact hcontent.append (ih fun u hu => h u (List.mem_cons_of_mem _ hu))

/-- The text of a proper element is an element, wherever it stands. -/
theorem Element.Proper.stands (h : e.Proper) (indent depth : Nat) : Stands indent depth e := by
  induction h generalizing depth with
  | empty htag hattributes => exact stands_of_lines rfl (isElement_empty htag hattributes)
  | text htag hattributes =>
    exact stands_of_lines rfl (isElement_opening htag hattributes (.data (isData_escape _)))
  | @number attributes part parts hattributes hparts =>
    have hblank : IsContent " " := isContent_of_blank (by simp)
    have helement : IsElement "cn" _ := isElement_opening rfl hattributes
      ((hblank.append (isContent_intercalate hparts)).append hblank)
    have htext : (Mark.number attributes (part :: parts)).text = "<" ++ Mark.opening "cn" attributes ++ ">"
        ++ (" " ++ " <sep/> ".intercalate (part :: parts) ++ " ") ++ "</" ++ "cn" ++ ">" := by
      apply String.toList_inj.1
      simp [Mark.text]
    exact stands_of_lines rfl (htext ▸ helement)
  | @around tag attributes content htag hattributes hcontent ih =>
    have hinside := isContent_linesAll fun e he => ih e he (depth + 1)
    have helement := isElement_opening htag hattributes
      (((isContent_lineEnd indent).append hinside).append (isContent_margin indent depth))
    refine ⟨_, ?_, helement⟩
    have hlines := linesText_append indent (linesAll (depth + 1) content) [⟨depth, .finish tag⟩]
    rw [Element.textAt, Element.lines, linesText, List.map_cons, String.join_cons, ← linesText, hlines,
      Line.text_eq]
    simp only [linesText, List.map_singleton, Line.text_eq, Mark.text, String.join_cons,
      String.append_assoc]
    simp

theorem margin_zero (indent : Nat) : margin indent 0 = "" := by
  unfold margin
  split_ifs
  · rfl
  · rw [Nat.zero_mul]
    rfl

theorem Element.Proper.isElement (h : e.Proper) (indent : Nat) :
    ∃ text, IsElement e.tag text ∧ e.textAt indent 0 = text ++ lineEnd indent := by
  obtain ⟨text, htext, helement⟩ := h.stands indent 0
  rw [margin_zero, String.empty_append] at htext
  exact ⟨text, helement, htext⟩

end Markup

namespace Tree

/-- What is written of a tree is one element of markup, and of a document an element `math`, with a
line end behind it if lines are indented. -/
theorem markup_isElement (t : Tree) (indent : Nat) :
    (∀ text, t.mathElement indent = .ok text →
      ∃ tag element, IsElement tag element ∧ text = element ++ lineEnd indent) ∧
    (∀ text, t.mathDocument indent = .ok text →
      ∃ element, IsElement "math" element ∧ text = element ++ lineEnd indent) := by
  constructor
  · intro text h
    obtain ⟨e, he, rfl⟩ := mathElement_eq_ok_iff.1 h
    obtain ⟨element, helement, htext⟩ := (proper_of_element he).isElement indent
    exact ⟨e.tag, element, helement, htext⟩
  · intro text h
    obtain ⟨e, he, rfl⟩ := mathDocument_eq_ok_iff.1 h
    obtain ⟨element, helement, htext⟩ := (proper_of_mathWith he).isElement indent
    obtain ⟨root, -, rfl⟩ := mathWith_eq_ok_iff.1 he
    exact ⟨element, helement, htext⟩

/-- A call with signs of markup in its name and its identifier. -/
theorem markup_isElement_call :
    let t : Tree := .node { Head.call "f<" with id := some "\"&" } [leaf (.identifier "x")]
    let text := "<apply id=\"&quot;&amp;\">\n  <ci>f&lt;</ci>\n  <ci>x</ci>\n</apply>\n"
    let document := "<math xmlns=\"http://www.w3.org/1998/Math/MathML\">" ++
      "<apply id=\"&quot;&amp;\"><ci>f&lt;</ci><ci>x</ci></apply></math>"
    (t.mathElement 2 = .ok text ∧ t.mathDocument = .ok document) ∧
      (∃ tag element, IsElement tag element ∧ text = element ++ lineEnd 2) ∧
      ∃ element, IsElement "math" element ∧ document = element ++ lineEnd 0 := by
  intro t text document
  have htext : t.mathElement 2 = .ok text := by decide
  have hdocument : t.mathDocument = .ok document := by decide
  exact ⟨⟨htext, hdocument⟩, (markup_isElement t 2).1 text htext,
    (markup_isElement t 0).2 document hdocument⟩

end Tree

end MathTree

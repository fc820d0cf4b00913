import Mathlib.Data.List.Infix
import Mathlib.Logic.Function.Basic
import MathTree.Text.Entity

/-!
# Entities read back

`unescape` reads a text with entities from the left.  It undoes `escape` on every text, also where the
text looks like an entity itself.  The texts that `escape` writes are told by how they look
(`IsEscaped`): no bracket and no quote, and each ampersand begins an entity (`escape_lossless`).
-/

namespace MathTree.Text

/-- What a text with entities says. -/
def unescape : List Char → List Char
  | '&' :: 'a' :: 'm' :: 'p' :: ';' :: cs => '&' :: unescape cs
  | '&' :: 'l' :: 't' :: ';' :: cs => '<' :: unescape cs
  | '&' :: 'g' :: 't' :: ';' :: cs => '>' :: unescape cs
  | '&' :: 'q' :: 'u' :: 'o' :: 't' :: ';' :: cs => '"' :: unescape cs
  | '&' :: 'a' :: 'p' :: 'o' :: 's' :: ';' :: cs => '\'' :: unescape cs
  | c :: cs => c :: unescape cs
  | [] => []

/-- The brackets and the quotes. -/
def delimiters : List Char := ['<', '>', '"', '\'']

/-- The predefined entities. -/
def entities : List String := ["&amp;", "&lt;", "&gt;", "&quot;", "&apos;"]

/-- Whether a text can stand in an element or between quotes and means what it says: it has no
brackets and no quotes, and each ampersand begins a predefined entity. -/
structure IsEscaped (signs : List Char) : Prop where
  not_delimiter : ∀ c ∈ signs, c ∉ delimiters
  entity : ∀ rest, '&' :: rest <:+ signs → ∃ e ∈ entities, e.toList <+: '&' :: rest

variable {c : Char} {cs signs : List Char}

/-! ### Reading -/

theorem unescape_cons (h : c ≠ '&') (cs : List Char) : unescape (c :: cs) = c :: unescape cs := by
  rw [unescape] <;> rintro - rfl <;> exact absurd rfl h

theorem unescape_entity (c : Char) (cs : List Char) :
    unescape (entity c ++ cs) = c :: unescape cs := by
  unfold entity
  split
  · rfl
  · rfl
  · rfl
  · rfl
  · rfl
  next hamp _ _ _ _ => exact unescape_cons hamp cs

theorem unescape_escape (text : String) : String.ofList (unescape (escape text).toList) = text := by
  have hlist (l : List Char) : unescape (l.flatMap entity) = l := by
    induction l with
    | nil => rfl
    | cons c l ih => rw [List.flatMap_cons, unescape_entity, ih]
  rw [escape, String.toList_ofList, hlist, String.ofList_toList]

theorem escape_injective : Function.Injective escape := by
  intro a b h
  rw [← unescape_escape a, h, unescape_escape]

/-! ### Escaped texts -/

theorem isEscaped_nil : IsEscaped [] := by
  refine ⟨fun c hc => absurd hc List.not_mem_nil, fun rest h => ?_⟩
  exact absurd (List.suffix_nil.1 h) (List.cons_ne_nil _ _)

theorem IsEscaped.of_suffix (h : IsEscaped signs) (hcs : cs <:+ signs) : IsEscaped cs :=
  ⟨fun c hc => h.not_delimiter c (hcs.subset hc), fun rest hrest => h.entity rest (hrest.trans hcs)⟩

theorem IsEscaped.cons (h : IsEscaped cs) (hc : c ∉ delimiters)
    (hamp : c = '&' → ∃ e ∈ entities, e.toList <+: c :: cs) : IsEscaped (c :: cs) := by
  refine ⟨List.forall_mem_cons.2 ⟨hc, h.not_delimiter⟩, fun rest hrest => ?_⟩
  rcases List.suffix_cons_iff.1 hrest with heq | hrest
  · obtain ⟨rfl, rfl⟩ := List.cons_eq_cons.1 heq
    exact hamp rfl
  · exact h.entity rest hrest

/-- An ampersand may stand in front of what makes it an entity. -/
theorem IsEscaped.ampersand (h : IsEscaped cs) (name : List Char)
    (hname : String.ofList ('&' :: name) ∈ entities)
    (hplain : name.all fun c => c ∉ '&' :: delimiters) : IsEscaped ('&' :: (name ++ cs)) := by
  have hrest (l : List Char) (hl : ∀ c ∈ l, c ∉ '&' :: delimiters) : IsEscaped (l ++ cs) := by
    induction l with
    | nil => exact h
    | cons c l ih =>
      obtain ⟨hamp, hc⟩ := not_or.1 (mt List.mem_cons.2 (hl c List.mem_cons_self))
      have htail := ih fun d hd => hl d (List.mem_cons_of_mem _ hd)
      exact htail.cons hc fun heq => absurd heq hamp
  have hplain : ∀ c ∈ name, c ∉ '&' :: delimiters := fun c hc =>
    of_decide_eq_true (List.all_eq_true.1 hplain c hc)
  refine (hrest name hplain).cons (by decide) fun _ => ⟨_, hname, ?_⟩
  rw [String.toList_ofList]
  exact ⟨cs, rfl⟩

theorem entity_of_not_mem (hc : c ∉ '&' :: delimiters) : entity c = [c] := by
  unfold entity
  split
  · exact absurd (by decide) hc
  · exact absurd (by decide) hc
  · exact absurd (by decide) hc
  · exact absurd (by decide) hc
  · exact absurd (by decide) hc
  · rfl

theorem IsEscaped.entity_append (h : IsEscaped cs) (c : Char) : IsEscaped (Text.entity c ++ cs) := by
  by_cases hc : c ∈ '&' :: delimiters
  · simp only [delimiters, List.mem_cons, List.not_mem_nil, or_false] at hc
    rcases hc with rfl | rfl | rfl | rfl | rfl
    · exact h.ampersand ['a', 'm', 'p', ';'] (by decide) rfl
    · exact h.ampersand ['l', 't', ';'] (by decide) rfl
    · exact h.ampersand ['g', 't', ';'] (by decide) rfl
    · exact h.ampersand ['q', 'u', 'o', 't', ';'] (by decide) rfl
    · exact h.ampersand ['a', 'p', 'o', 's', ';'] (by decide) rfl
  · rw [entity_of_not_mem hc]
    obtain ⟨hamp, hc⟩ := not_or.1 (mt List.mem_cons.2 hc)
    exact h.cons hc fun heq => absurd heq hamp

theorem isEscaped_escape (text : String) : IsEscaped (escape text).toList := by
  rw [escape, String.toList_ofList]
  induction text.toList with
  | nil => exact isEscaped_nil
  | cons c l ih =>
    rw [List.flatMap_cons]
    exact ih.entity_append c

/-- Escaped text has no brackets and no quotes. -/
theorem not_mem_escape (text : String) :
    ∀ c ∈ (escape text).toList, c ≠ '<' ∧ c ≠ '>' ∧ c ≠ '"' := by
  intro c hc
  have hdelimiter := (isEscaped_escape text).not_delimiter c hc
  refine ⟨?_, ?_, ?_⟩ <;> rintro rfl <;> exact hdelimiter (by decide)

theorem length_entity_pos (c : Char) : 0 < (entity c).length := by
  unfold entity
  split <;> exact Nat.succ_pos _

theorem exists_entity_eq : ∀ e ∈ entities, ∃ c, e.toList = entity c := by
  simp only [entities, List.forall_mem_cons]
  exact ⟨⟨'&', rfl⟩, ⟨'<', rfl⟩, ⟨'>', rfl⟩, ⟨'"', rfl⟩, ⟨'\'', rfl⟩, nofun⟩

/-- A text that looks escaped begins with what one sign is escaped to. -/
theorem IsEscaped.exists_entity_append (h : IsEscaped (c :: cs)) :
    ∃ d rest, Text.entity d ++ rest = c :: cs := by
  by_cases hamp : c = '&'
  · subst hamp
    obtain ⟨e, he, rest, hrest⟩ := h.entity cs List.suffix_rfl
    obtain ⟨d, hd⟩ := exists_entity_eq e he
    exact ⟨d, rest, by rw [← hd, hrest]⟩
  · have hc : c ∉ '&' :: delimiters := by
      rw [List.mem_cons, not_or]
      exact ⟨hamp, h.not_delimiter c List.mem_cons_self⟩
    exact ⟨c, cs, by rw [entity_of_not_mem hc]; rfl⟩

/-- Whatever looks escaped is the escape of a text. -/
theorem IsEscaped.exists_flatMap (h : IsEscaped signs) :
    ∃ text : List Char, text.flatMap Text.entity = signs := by
  -- the signs are taken off entity by entity, so the induction is on how many are left
  induction hn : signs.length using Nat.strong_induction_on generalizing signs with
  | _ n ih =>
    subst hn
    match signs with
    | [] => exact ⟨[], rfl⟩
    | c :: cs =>
      obtain ⟨d, rest, hd⟩ := h.exists_entity_append
      have hlength := congrArg List.length hd
      rw [List.length_append] at hlength
      have hpos := length_entity_pos d
      obtain ⟨text, htext⟩ := ih rest.length (by omega) (h.of_suffix ⟨_, hd⟩) rfl
      exact ⟨d :: text, by rw [List.flatMap_cons, htext, hd]⟩

/-- An escaped text has no bracket and no quote, has no ampersand but those of entities, and reads back
as it was, so that no two texts are escaped alike.  Texts that are put together are escaped one by
one, and every text that looks escaped is the escape of another. -/
theorem escape_lossless :
    (∀ text, IsEscaped (escape text).toList ∧ String.ofList (unescape (escape text).toList) = text) ∧
    Function.Injective escape ∧
    (∀ a b, escape (a ++ b) = escape a ++ escape b) ∧
    ∀ written : String, IsEscaped written.toList ↔ ∃ text, escape text = written := by
  refine ⟨fun text => ⟨isEscaped_escape text, unescape_escape text⟩, escape_injective, fun a b => ?_,
    fun written => ⟨fun h => ?_, ?_⟩⟩
  · simp only [escape, String.toList_append, List.flatMap_append, String.ofList_append]
  · obtain ⟨text, htext⟩ := h.exists_flatMap
    refine ⟨String.ofList text, ?_⟩
    rw [escape, String.toList_ofList, htext, String.ofList_toList]
  · rintro ⟨text, rfl⟩
    exact isEscaped_escape text

/-- What looks like an entity is escaped like anything else. -/
example : escape "a&lt;b" = "a&amp;lt;b" ∧ unescape "a&amp;lt;b".toList = "a&lt;b".toList := by decide

end MathTree.Text

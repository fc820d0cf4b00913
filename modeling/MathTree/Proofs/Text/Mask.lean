import MathTree.Text.Mask

/-!
# Masked names

A masked text starts as its first character is masked, unless that is blank (`head?_mask`), and a text
without blanks and without characters that LaTeX gives a meaning is its own mask (`mask_eq_self`).
Without line breaks each character is masked by itself, and the blanks at the ends can as well be taken
away before (`mask_eq_flatMap`).
-/

namespace MathTree.Text

variable {hyphenate : Bool} {previous : Option Char} {c : Char} {l : List Char}

/-- Whether a character is not written as it is. -/
def isMasked (c : Char) : Bool := c == '<' || c == '>' || isSpecial c

/-! ### Blanks -/

theorem trimEnd_cons (hc : ¬ isBlank c) (l : List Char) : trimEnd (c :: l) = c :: trimEnd l := by
  have hlast : [c].dropWhile isBlank = [c] := by simp [hc]
  rw [trimEnd, List.reverse_cons, List.dropWhile_append, hlast, trimEnd]
  split <;> simp_all

theorem trim_cons (hc : ¬ isBlank c) (l : List Char) : trim (c :: l) = c :: trimEnd l := by
  rw [trim, List.dropWhile_cons_of_neg hc, trimEnd_cons hc]

theorem trim_eq_self (h : ∀ c ∈ l, ¬ isBlank c) : trim l = l := by
  have hdrop {l : List Char} (h : ∀ c ∈ l, ¬ isBlank c) : l.dropWhile isBlank = l := by
    cases l with
    | nil => rfl
    | cons c l => exact List.dropWhile_cons_of_neg (h c List.mem_cons_self)
  rw [trim, trimEnd, hdrop h, hdrop fun c hc => h c (List.mem_reverse.1 hc), List.reverse_reverse]

section

variable {f : Char → List Char}

/-- Where blanks stay as they are, and nothing else comes to start with a blank, blanks can be taken
away before. -/
theorem dropWhile_flatMap (hblank : ∀ c, isBlank c → f c = [c])
    (hother : ∀ c, ¬ isBlank c → ∃ d rest, f c = d :: rest ∧ ¬ isBlank d) (l : List Char) :
    (l.flatMap f).dropWhile isBlank = (l.dropWhile isBlank).flatMap f := by
  induction l with
  | nil => rfl
  | cons c l ih =>
    by_cases hc : isBlank c
    · rw [List.dropWhile_cons_of_pos hc, List.flatMap_cons, hblank c hc, List.singleton_append,
        List.dropWhile_cons_of_pos hc, ih]
    · obtain ⟨d, rest, hd, hnot⟩ := hother c hc
      rw [List.dropWhile_cons_of_neg hc, List.flatMap_cons, hd, List.cons_append,
        List.dropWhile_cons_of_neg hnot]

theorem trim_flatMap (hblank : ∀ c, isBlank c → f c = [c])
    (hfirst : ∀ c, ¬ isBlank c → ∃ d rest, f c = d :: rest ∧ ¬ isBlank d)
    (hlast : ∀ c, ¬ isBlank c → ∃ d rest, (f c).reverse = d :: rest ∧ ¬ isBlank d) (l : List Char) :
    trim (l.flatMap f) = (trim l).flatMap f := by
  have hreverse : ∀ c, isBlank c → (f c).reverse = [c] := fun c hc => by
    rw [hblank c hc, List.reverse_singleton]
  have hback (l : List Char) : (l.flatMap f).reverse = l.reverse.flatMap fun c => (f c).reverse :=
    List.reverse_flatMap ..
  rw [trim, trimEnd, dropWhile_flatMap hblank hfirst, hback, dropWhile_flatMap hreverse hlast,
    List.reverse_flatMap, trim, trimEnd]
  simp [Function.comp_def]

end

/-! ### Characters -/

theorem maskChar_of_not_isMasked (h : ¬ isMasked c) : maskChar hyphenate previous c = [c] := by
  simp only [isMasked, Bool.or_eq_true, beq_iff_eq, not_or] at h
  rw [maskChar, if_neg h.1.1, if_neg h.1.2, if_neg h.2]

/-- Without line breaks it does not matter what stands before a character. -/
theorem maskChar_false (previous : Option Char) (c : Char) :
    maskChar false previous c = maskChar false none c := by
  simp [maskChar]

/-- No line breaks before the first character. -/
theorem maskChar_none (hyphenate : Bool) (c : Char) :
    maskChar hyphenate none c = maskChar false none c := by
  simp [maskChar]

theorem maskChar_false_cases (c : Char) :
    (c = '<' ∧ maskChar false none c = ['$', '<', '$']) ∨
    (c = '>' ∧ maskChar false none c = ['$', '>', '$']) ∨
    (isSpecial c ∧ maskChar false none c = ['\\', c]) ∨
    ¬ isMasked c ∧ maskChar false none c = [c] := by
  by_cases hless : c = '<'
  · exact .inl ⟨hless, by rw [maskChar, if_pos hless]⟩
  by_cases hgreater : c = '>'
  · exact .inr (.inl ⟨hgreater, by rw [maskChar, if_neg hless, if_pos hgreater]⟩)
  by_cases hspecial : isSpecial c
  · exact .inr (.inr (.inl ⟨hspecial, by simp [maskChar, hless, hgreater, hspecial]⟩))
  · have hnot : ¬ isMasked c := by simp [isMasked, hless, hgreater, hspecial]
    exact .inr (.inr (.inr ⟨hnot, maskChar_of_not_isMasked hnot⟩))

/-- What holds of the characters that are masked, one by one. -/
theorem of_isMasked {p : Char → Bool}
    (hp : ['<', '>', '_', '\\', '$', '&', '#', '{', '}', '~', '%', '^'].all p) (h : isMasked c) :
    p c := by
  refine List.all_eq_true.1 hp c ?_
  simpa [isMasked, isSpecial, or_assoc] using h

theorem not_isBlank_of_isMasked (h : isMasked c) : ¬ isBlank c := by
  have hblank := of_isMasked (p := fun c => !isBlank c) rfl h
  simpa using hblank

theorem not_isMasked_of_isAlphanum (h : c.isAlphanum) : ¬ isMasked c := by
  intro hmasked
  have hletter := of_isMasked (p := fun c => !c.isAlphanum) rfl hmasked
  rw [h] at hletter
  cases hletter

/-! ### Texts -/

theorem maskFrom_false (previous : Option Char) (l : List Char) :
    maskFrom false previous l = l.flatMap (maskChar false none) := by
  induction l generalizing previous with
  | nil => rfl
  | cons c l ih => rw [maskFrom, maskChar_false, ih, List.flatMap_cons]

theorem mask_eq_flatMap (text : String) :
    mask false text = String.ofList ((trim text.toList).flatMap (maskChar false none)) := by
  have hdollar : ¬ isBlank '$' := by decide
  have hslash : ¬ isBlank '\\' := by decide
  rw [mask, maskFrom_false, trim_flatMap]
  · intro c hc
    exact maskChar_of_not_isMasked fun h => not_isBlank_of_isMasked h hc
  · intro c hc
    rcases maskChar_false_cases c with ⟨-, h⟩ | ⟨-, h⟩ | ⟨-, h⟩ | ⟨-, h⟩ <;> rw [h]
    · exact ⟨_, _, rfl, hdollar⟩
    · exact ⟨_, _, rfl, hdollar⟩
    · exact ⟨_, _, rfl, hslash⟩
    · exact ⟨_, _, rfl, hc⟩
  · intro c hc
    rcases maskChar_false_cases c with ⟨-, h⟩ | ⟨-, h⟩ | ⟨-, h⟩ | ⟨-, h⟩ <;> rw [h]
    · exact ⟨_, _, rfl, hdollar⟩
    · exact ⟨_, _, rfl, hdollar⟩
    · exact ⟨_, _, rfl, hc⟩
    · exact ⟨_, _, rfl, hc⟩

/-- The first character is the first one still, or has a sign in front that is no minus. -/
theorem head?_mask {text : String} (htext : text.toList = c :: l) (hc : ¬ isBlank c) :
    (mask hyphenate text).toList.head? ∈ [some c, some '$', some '\\'] := by
  have hstarts {d : Char} {rest more : List Char} (hd : ¬ isBlank d) :
      (trim (d :: rest ++ more)).head? = some d := by
    rw [List.cons_append, trim_cons hd, List.head?_cons]
  rw [mask, String.toList_ofList, htext, maskFrom, maskChar_none]
  rcases maskChar_false_cases c with ⟨-, h⟩ | ⟨-, h⟩ | ⟨-, h⟩ | ⟨-, h⟩ <;> rw [h]
  · rw [hstarts (by decide)]
    simp
  · rw [hstarts (by decide)]
    simp
  · rw [hstarts (by decide)]
    simp
  · rw [hstarts hc]
    simp

theorem mask_eq_self {text : String} (h : ∀ c ∈ text.toList, ¬ isMasked c ∧ ¬ isBlank c) :
    mask hyphenate text = text := by
  have hfrom (previous : Option Char) (l : List Char) (hl : ∀ c ∈ l, ¬ isMasked c) :
      maskFrom hyphenate previous l = l := by
    induction l generalizing previous with
    | nil => rfl
    | cons c l ih =>
      rw [maskFrom, maskChar_of_not_isMasked (hl c List.mem_cons_self),
        ih _ fun d hd => hl d (List.mem_cons_of_mem _ hd), List.singleton_append]
  rw [mask, hfrom _ _ fun c hc => (h c hc).1, trim_eq_self fun c hc => (h c hc).2,
    String.ofList_toList]

end MathTree.Text

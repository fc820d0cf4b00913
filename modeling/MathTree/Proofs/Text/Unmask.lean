import MathTree.Proofs.Text.Mask
import Mathlib.Tactic.SplitIfs

/-!
# Reading masked texts back

LaTeX reads a text from left to right, a backslash together with the character behind it
(`Text.glyphs?`).  A masked text can be read back (`Text.Unmasks`): what stands by itself has no meaning
of its own, and without the places where a line may break the characters that are meant are those of
the text, without the blanks at its ends.  The one exception are texts that are masked with line breaks
and in which a special character stands right behind a backslash.  The backslash is escaped there and
the other is not (`unmasks_mask_iff`).
-/

namespace MathTree.Text

variable {hyphenate : Bool} {previous : Option Char} {c : Char} {l masked text : List Char}

/-! ### Reading from left to right -/

/-- What LaTeX reads at once: a character behind a backslash, a sign that is a formula of its own, or a
character by itself. -/
inductive Glyph where
  | escaped (c : Char)
  | wrapped (c : Char)
  | plain (c : Char)
  deriving DecidableEq, Repr

/-- What a glyph stands for; an escaped hyphen is a place where a line may break. -/
def Glyph.meant : Glyph → List Char
  | .escaped c => if c = '-' then [] else [c]
  | .wrapped c | .plain c => [c]

/-- The glyphs of a text, unless it ends within an escape. -/
def glyphs? : List Char → Option (List Glyph)
  | [] => some []
  | ['\\'] => none
  | '\\' :: c :: rest => (glyphs? rest).map (.escaped c :: ·)
  | '$' :: '<' :: '$' :: rest => (glyphs? rest).map (.wrapped '<' :: ·)
  | '$' :: '>' :: '$' :: rest => (glyphs? rest).map (.wrapped '>' :: ·)
  | c :: rest => (glyphs? rest).map (.plain c :: ·)

/-- The characters that LaTeX gives a meaning where they stand by themselves. -/
def interpreted : List Char := ['_', '&', '#', '{', '}', '~', '%', '^', '$']

/-- Whether a glyph is no character by itself to which LaTeX gives a meaning. -/
def Glyph.Clean (glyph : Glyph) : Prop := ∀ c ∈ interpreted, glyph ≠ .plain c

/-- Whether a masked text is read without a meaning of LaTeX's own and stands for these characters. -/
def Unmasks (masked text : List Char) : Prop :=
  ∃ glyphs, glyphs? masked = some glyphs ∧ (∀ glyph ∈ glyphs, glyph.Clean) ∧
    glyphs.flatMap Glyph.meant = text

theorem glyphs?_plain (hslash : c ≠ '\\') (hdollar : c ≠ '$') (rest : List Char) :
    glyphs? (c :: rest) = (glyphs? rest).map (.plain c :: ·) := by
  rw [glyphs?] <;> simp_all

theorem glyphs?_dollar {rest : List Char} (h : rest.head? ≠ some '<' ∧ rest.head? ≠ some '>') :
    glyphs? ('$' :: rest) = (glyphs? rest).map (.plain '$' :: ·) := by
  have hslash : ('$' : Char) ≠ '\\' := by decide
  rw [glyphs?]
  · exact fun e => absurd e hslash
  · exact fun _ _ e => absurd e hslash
  · rintro rest' - rfl
    exact h.1 rfl
  · rintro rest' - rfl
    exact h.2 rfl

/-! ### One glyph after the other -/

section

variable {glyph : Glyph} {rest : List Char}

theorem unmasks_cons_iff (h : glyphs? masked = (glyphs? rest).map (glyph :: ·)) :
    Unmasks masked text ↔ glyph.Clean ∧ ∃ others, Unmasks rest others ∧ text = glyph.meant ++ others := by
  unfold Unmasks
  rw [h]
  constructor
  · rintro ⟨glyphs, hglyphs, hclean, rfl⟩
    obtain ⟨others, hothers, rfl⟩ := Option.map_eq_some_iff.1 hglyphs
    rw [List.forall_mem_cons] at hclean
    exact ⟨hclean.1, _, ⟨others, hothers, hclean.2, rfl⟩, List.flatMap_cons⟩
  · rintro ⟨hclean, _, ⟨others, hothers, hcleans, rfl⟩, rfl⟩
    rw [hothers]
    exact ⟨glyph :: others, rfl, List.forall_mem_cons.2 ⟨hclean, hcleans⟩, List.flatMap_cons⟩

theorem unmasks_nil_iff : Unmasks [] text ↔ text = [] := by
  simp [Unmasks, glyphs?, eq_comm]

theorem unmasks_escaped_iff (c : Char) : Unmasks ('\\' :: c :: rest) text ↔
    ∃ others, Unmasks rest others ∧ text = (Glyph.escaped c).meant ++ others := by
  have hclean : (Glyph.escaped c).Clean := fun d _ h => by cases h
  have hglyphs : glyphs? ('\\' :: c :: rest) = (glyphs? rest).map (.escaped c :: ·) := by rw [glyphs?]
  rw [unmasks_cons_iff hglyphs, and_iff_right hclean]

theorem unmasks_wrapped_iff (hc : c = '<' ∨ c = '>') : Unmasks ('$' :: c :: '$' :: rest) text ↔
    ∃ others, Unmasks rest others ∧ text = c :: others := by
  have hclean : (Glyph.wrapped c).Clean := fun d _ h => by cases h
  have hglyphs : glyphs? ('$' :: c :: '$' :: rest) = (glyphs? rest).map (.wrapped c :: ·) := by
    rcases hc with rfl | rfl <;> rw [glyphs?]
  rw [unmasks_cons_iff hglyphs, and_iff_right hclean]
  rfl

theorem unmasks_plain_iff (hslash : c ≠ '\\') (hdollar : c ≠ '$') : Unmasks (c :: rest) text ↔
    c ∉ interpreted ∧ ∃ others, Unmasks rest others ∧ text = c :: others := by
  have hclean : (Glyph.plain c).Clean ↔ c ∉ interpreted := by
    refine ⟨fun h hc => h c hc rfl, fun h d hd e => ?_⟩
    cases e
    exact h hd
  rw [unmasks_cons_iff (glyphs?_plain hslash hdollar rest), hclean]
  rfl

/-- A dollar sign that does not wrap anything has a meaning of its own. -/
theorem not_unmasks_dollar (h : rest.head? ≠ some '<' ∧ rest.head? ≠ some '>') :
    ¬ Unmasks ('$' :: rest) text := by
  rw [unmasks_cons_iff (glyphs?_dollar h)]
  exact fun hmeans => hmeans.1 '$' (by decide) rfl

theorem not_unmasks_slash : ¬ Unmasks ['\\'] text := by
  rintro ⟨glyphs, hglyphs, -⟩
  cases hglyphs

end

/-! ### How a character is written -/

/-- Whether a special character stands behind a backslash, in a text behind `previous`. -/
def DoublesFrom (previous : Option Char) : List Char → Prop
  | [] => False
  | c :: l => previous = some '\\' ∧ isSpecial c ∨ DoublesFrom (some c) l

theorem isSpecial_iff : isSpecial c ↔ c = '\\' ∨ c ∈ interpreted := by
  simp only [isSpecial, interpreted, List.contains_iff_mem, List.mem_cons, List.not_mem_nil]
  grind

/-- A special character behind a backslash is written by itself, and any other character so that it can be
read back. -/
theorem maskChar_cases (hyphenate : Bool) (previous : Option Char) (c : Char) :
    ((c = '<' ∨ c = '>') ∧ maskChar hyphenate previous c = ['$', c, '$']) ∨
    (isSpecial c ∧ maskChar hyphenate previous c = ['\\', c]) ∨
    (isSpecial c ∧ maskChar hyphenate previous c = ['\\', '-', '\\', c]) ∨
    (¬ isMasked c ∧ maskChar hyphenate previous c = [c]) ∨
    (hyphenate ∧ previous = some '\\' ∧ isSpecial c) ∧ maskChar hyphenate previous c = [c] := by
  by_cases hless : c = '<'
  · exact .inl ⟨.inl hless, by rw [maskChar, if_pos hless, hless]⟩
  by_cases hgreater : c = '>'
  · exact .inl ⟨.inr hgreater, by rw [maskChar, if_neg hless, if_pos hgreater, hgreater]⟩
  by_cases hspecial : isSpecial c
  · rw [maskChar, if_neg hless, if_neg hgreater, if_pos hspecial]
    split_ifs with hfirst hbehind
    · exact .inr (.inl ⟨hspecial, rfl⟩)
    · have hhyphenate : hyphenate := by simp_all
      exact .inr (.inr (.inr (.inr ⟨⟨hhyphenate, hbehind, hspecial⟩, rfl⟩)))
    · exact .inr (.inr (.inl ⟨hspecial, rfl⟩))
  · have hnot : ¬ isMasked c := by simp [isMasked, hless, hgreater, hspecial]
    exact .inr (.inr (.inr (.inl ⟨hnot, maskChar_of_not_isMasked hnot⟩)))

theorem ne_hyphen_of_isSpecial (h : isSpecial c) : c ≠ '-' := by
  rintro rfl
  exact absurd h (by decide)

theorem ne_of_not_isMasked (h : ¬ isMasked c) : c ≠ '\\' ∧ c ≠ '$' ∧ c ∉ interpreted := by
  have hspecial : ¬ isSpecial c := fun hc => h (by simp [isMasked, hc])
  rw [isSpecial_iff, not_or] at hspecial
  refine ⟨hspecial.1, ?_, hspecial.2⟩
  rintro rfl
  exact hspecial.2 (by decide)

/-- What is written for a character is read back as that character, unless it is special and stands right
behind a backslash. -/
theorem unmasks_maskChar_iff (hnot : ¬ (hyphenate ∧ previous = some '\\' ∧ isSpecial c)) :
    Unmasks (maskChar hyphenate previous c ++ masked) text ↔
      ∃ others, Unmasks masked others ∧ text = c :: others := by
  have hmeant (hspecial : isSpecial c) : (Glyph.escaped c).meant = [c] :=
    if_neg (ne_hyphen_of_isSpecial hspecial)
  rcases maskChar_cases hyphenate previous c with
    ⟨hc, h⟩ | ⟨hspecial, h⟩ | ⟨hspecial, h⟩ | ⟨hc, h⟩ | ⟨hdoubled, -⟩
  · rw [h]
    exact unmasks_wrapped_iff hc
  · rw [h]
    refine (unmasks_escaped_iff c).trans ?_
    rw [hmeant hspecial]
    rfl
  · rw [h]
    -- a place where the line may break, which means nothing, and then the character
    have hbreak : (Glyph.escaped '-').meant = [] := rfl
    refine (unmasks_escaped_iff '-').trans ?_
    simp only [hbreak, List.nil_append, exists_eq_right']
    refine (unmasks_escaped_iff c).trans ?_
    rw [hmeant hspecial]
    rfl
  · rw [h]
    obtain ⟨hslash, hdollar, hclean⟩ := ne_of_not_isMasked hc
    exact (unmasks_plain_iff hslash hdollar).trans (and_iff_right hclean)
  · exact absurd hdoubled hnot

theorem unmasks_maskFrom (h : ¬ (hyphenate ∧ DoublesFrom previous l)) :
    Unmasks (maskFrom hyphenate previous l) l := by
  induction l generalizing previous with
  | nil => exact unmasks_nil_iff.2 rfl
  | cons c l ih =>
    rw [maskFrom, unmasks_maskChar_iff fun hc => h ⟨hc.1, .inl hc.2⟩]
    exact ⟨l, ih fun hl => h ⟨hl.1, .inr hl.2⟩, rfl⟩

/-- No masked text starts with a sign that a dollar sign could wrap. -/
theorem head?_maskFrom (hyphenate : Bool) (previous : Option Char) (l : List Char) :
    (maskFrom hyphenate previous l).head? ≠ some '<' ∧
      (maskFrom hyphenate previous l).head? ≠ some '>' := by
  cases l with
  | nil => exact ⟨nofun, nofun⟩
  | cons c l =>
    rw [maskFrom]
    rcases maskChar_cases hyphenate previous c with
      ⟨-, h⟩ | ⟨-, h⟩ | ⟨-, h⟩ | ⟨hc, h⟩ | ⟨⟨-, -, hspecial⟩, h⟩ <;> rw [h]
    · exact ⟨by simp, by simp⟩
    · exact ⟨by simp, by simp⟩
    · exact ⟨by simp, by simp⟩
    · constructor <;>
      · rintro ⟨⟩
        exact hc (by decide)
    · constructor <;>
      · rintro ⟨⟩
        exact absurd hspecial (by decide)

/-- A special character behind a backslash is written as it is. -/
theorem maskChar_of_doubled (h : isSpecial c) : maskChar true (some '\\') c = [c] := by
  have hless : c ≠ '<' := by
    rintro rfl
    exact absurd h (by decide)
  have hgreater : c ≠ '>' := by
    rintro rfl
    exact absurd h (by decide)
  rw [maskChar, if_neg hless, if_neg hgreater, if_pos h]
  rfl

/-- Behind a backslash that is not escaped the next character is lost to it. -/
theorem unmasks_slash_maskFrom (h : Unmasks ('\\' :: maskFrom true (some '\\') (c :: l)) text) :
    ∃ others, Unmasks (maskFrom true (some c) l) others ∧
      text = (Glyph.escaped c).meant ++ others := by
  rw [maskFrom] at h
  by_cases hmasked : isMasked c
  · by_cases hspecial : isSpecial c
    · rw [maskChar_of_doubled hspecial] at h
      exact (unmasks_escaped_iff c).1 h
    · -- the backslash takes the first dollar sign, and the second one wraps nothing
      have hwraps : c = '<' ∨ c = '>' := by simpa [isMasked, hspecial] using hmasked
      have hsigns : c ≠ '\\' ∧ c ≠ '$' := by rcases hwraps with rfl | rfl <;> decide
      have hwrapped : maskChar true (some '\\') c = ['$', c, '$'] := by
        rcases hwraps with rfl | rfl <;> rfl
      rw [hwrapped] at h
      obtain ⟨_, h, -⟩ := (unmasks_escaped_iff '$').1 h
      obtain ⟨-, _, h, -⟩ := (unmasks_plain_iff hsigns.1 hsigns.2).1 h
      exact absurd h (not_unmasks_dollar (head?_maskFrom _ _ _))
  · rw [maskChar_of_not_isMasked hmasked] at h
    exact (unmasks_escaped_iff c).1 h

/-- A special character that is not escaped has a meaning of its own, or it is a backslash and takes the
next character: what can be read back is never longer than the text, and it is shorter if a special
character stands behind a backslash. -/
theorem length_le_of_unmasks (l : List Char) :
    (∀ previous text, Unmasks (maskFrom true previous l) text →
      text.length ≤ l.length ∧ (DoublesFrom previous l → text.length < l.length)) ∧
    ∀ text, Unmasks ('\\' :: maskFrom true (some '\\') l) text → text.length ≤ l.length := by
  induction l with
  | nil =>
    refine ⟨fun previous text h => ?_, fun text h => absurd h not_unmasks_slash⟩
    rw [unmasks_nil_iff.1 h]
    exact ⟨Nat.le_refl _, False.elim⟩
  | cons c l ih =>
    obtain ⟨ih, ihslash⟩ := ih
    constructor
    · intro previous text h
      by_cases hdoubled : previous = some '\\' ∧ isSpecial c
      · rw [maskFrom, hdoubled.1, maskChar_of_doubled hdoubled.2, List.singleton_append] at h
        have hlt : text.length < (c :: l).length := by
          rcases isSpecial_iff.1 hdoubled.2 with rfl | hc
          · exact Nat.lt_succ_of_le (ihslash text h)
          · by_cases hdollar : c = '$'
            · rw [hdollar] at h
              exact absurd h (not_unmasks_dollar (head?_maskFrom _ _ _))
            · have hslash : c ≠ '\\' := by
                rintro rfl
                exact absurd hc (by decide)
              exact absurd hc ((unmasks_plain_iff hslash hdollar).1 h).1
        exact ⟨Nat.le_of_lt hlt, fun _ => hlt⟩
      · rw [maskFrom] at h
        obtain ⟨others, hothers, rfl⟩ := (unmasks_maskChar_iff fun hc => hdoubled hc.2).1 h
        obtain ⟨hle, hlt⟩ := ih _ _ hothers
        exact ⟨Nat.succ_le_succ hle, fun hd => Nat.succ_lt_succ (hlt (hd.resolve_left hdoubled))⟩
    · intro text h
      obtain ⟨others, hothers, rfl⟩ := unmasks_slash_maskFrom h
      have hle := (ih _ _ hothers).1
      have hmeant : (Glyph.escaped c).meant.length ≤ 1 := by
        rw [Glyph.meant]
        split_ifs <;> simp
      rw [List.length_append, List.length_cons]
      omega

theorem unmasks_maskFrom_iff :
    Unmasks (maskFrom hyphenate previous l) l ↔ ¬ (hyphenate ∧ DoublesFrom previous l) := by
  refine ⟨?_, unmasks_maskFrom⟩
  rintro h ⟨rfl, hdoubles⟩
  exact Nat.lt_irrefl _ (((length_le_of_unmasks l).1 _ _ h).2 hdoubles)

/-! ### Blanks at the ends -/

theorem trimEnd_append (l l' : List Char) :
    trimEnd (l ++ l') = if trimEnd l' = [] then trimEnd l else l ++ trimEnd l' := by
  simp only [trimEnd, List.reverse_append, List.dropWhile_append, List.reverse_eq_nil_iff,
    List.isEmpty_iff]
  split_ifs <;> simp

/-- A character that is not blank is written without blanks at the ends. -/
theorem ends_maskChar (hyphenate : Bool) (previous : Option Char) (hc : ¬ isBlank c) :
    (∃ d rest, maskChar hyphenate previous c = d :: rest ∧ ¬ isBlank d) ∧
      trimEnd (maskChar hyphenate previous c) = maskChar hyphenate previous c := by
  have hdollar : ¬ isBlank '$' := by decide
  have hslash : ¬ isBlank '\\' := by decide
  have hkeep (l : List Char) {d : Char} (hd : ¬ isBlank d) : trimEnd (l ++ [d]) = l ++ [d] := by
    have hone : trimEnd [d] = [d] := trimEnd_cons hd []
    rw [trimEnd_append, hone, if_neg (List.cons_ne_nil d [])]
  rcases maskChar_cases hyphenate previous c with
    ⟨-, h⟩ | ⟨-, h⟩ | ⟨-, h⟩ | ⟨-, h⟩ | ⟨-, h⟩ <;> rw [h]
  · exact ⟨⟨_, _, rfl, hdollar⟩, hkeep ['$', c] hdollar⟩
  · exact ⟨⟨_, _, rfl, hslash⟩, hkeep ['\\'] hc⟩
  · exact ⟨⟨_, _, rfl, hslash⟩, hkeep ['\\', '-', '\\'] hc⟩
  · exact ⟨⟨_, _, rfl, hc⟩, hkeep [] hc⟩
  · exact ⟨⟨_, _, rfl, hc⟩, hkeep [] hc⟩

theorem maskChar_of_isBlank (h : isBlank c) : maskChar hyphenate previous c = [c] :=
  maskChar_of_not_isMasked fun hc => not_isBlank_of_isMasked hc h

/-- The first character that is left is masked as one behind a blank, or as the first one. -/
theorem exists_dropWhile_maskFrom (hyphenate : Bool) (l : List Char)
    (hprevious : previous ≠ some '\\') :
    ∃ before, (maskFrom hyphenate previous l).dropWhile isBlank
        = maskFrom hyphenate before (l.dropWhile isBlank) ∧
      (DoublesFrom before (l.dropWhile isBlank) ↔ DoublesFrom previous l) := by
  induction l generalizing previous with
  | nil => exact ⟨previous, rfl, Iff.rfl⟩
  | cons c l ih =>
    by_cases hc : isBlank c
    · have hslash : some c ≠ some '\\' := by
        rintro ⟨⟩
        exact absurd hc (by decide)
      obtain ⟨before, hdrop, hdoubles⟩ := ih hslash
      refine ⟨before, ?_, ?_⟩
      · rw [maskFrom, maskChar_of_isBlank hc, List.singleton_append,
          List.dropWhile_cons_of_pos hc, List.dropWhile_cons_of_pos hc, hdrop]
      · rw [List.dropWhile_cons_of_pos hc, hdoubles]
        exact (or_iff_right fun h => hprevious h.1).symm
    · obtain ⟨d, rest, hd, hnot⟩ := (ends_maskChar hyphenate previous hc).1
      refine ⟨previous, ?_, ?_⟩
      · rw [List.dropWhile_cons_of_neg hc, maskFrom, hd, List.cons_append,
          List.dropWhile_cons_of_neg hnot]
      · rw [List.dropWhile_cons_of_neg hc]

theorem maskFrom_eq_nil_iff : maskFrom hyphenate previous l = [] ↔ l = [] := by
  cases l with
  | nil => exact iff_of_true rfl rfl
  | cons c l =>
    refine iff_of_false (fun h => ?_) (List.cons_ne_nil c l)
    have hnil := (List.append_eq_nil_iff.1 h).1
    rcases maskChar_cases hyphenate previous c with ⟨-, h⟩ | ⟨-, h⟩ | ⟨-, h⟩ | ⟨-, h⟩ | ⟨-, h⟩ <;>
    · rw [h] at hnil
      cases hnil

theorem trimEnd_maskFrom (hyphenate : Bool) (previous : Option Char) (l : List Char) :
    trimEnd (maskFrom hyphenate previous l) = maskFrom hyphenate previous (trimEnd l) := by
  induction l generalizing previous with
  | nil => rfl
  | cons c l ih =>
    rw [← List.singleton_append, trimEnd_append [c] l, List.singleton_append, maskFrom,
      trimEnd_append, ih]
    simp only [maskFrom_eq_nil_iff]
    split_ifs with hl
    · by_cases hc : isBlank c
      · have hone : trimEnd [c] = [] := by simp [trimEnd, hc]
        rw [maskChar_of_isBlank hc, hone]
        rfl
      · have hone : trimEnd [c] = [c] := trimEnd_cons hc []
        rw [(ends_maskChar hyphenate previous hc).2, hone, maskFrom, maskFrom, List.append_nil]
    · rfl

/-- A blank is not special, nor can it be a backslash. -/
theorem doublesFrom_trimEnd (previous : Option Char) (l : List Char) :
    DoublesFrom previous (trimEnd l) ↔ DoublesFrom previous l := by
  induction l generalizing previous with
  | nil => rfl
  | cons c l ih =>
    rw [← List.singleton_append, trimEnd_append [c] l]
    split_ifs with hl
    · have hnil : ¬ DoublesFrom (some c) l := by
        rw [← ih, hl]
        exact id
      by_cases hc : isBlank c
      · have hone : trimEnd [c] = [] := by simp [trimEnd, hc]
        have hspecial : ¬ isSpecial c := fun h =>
          not_isBlank_of_isMasked (by simp [isMasked, h]) hc
        rw [hone]
        exact iff_of_false id (not_or.2 ⟨fun h => hspecial h.2, hnil⟩)
      · have hone : trimEnd [c] = [c] := trimEnd_cons hc []
        rw [hone]
        exact or_congr_right (iff_of_false id hnil)
    · exact or_congr_right (ih (some c))

theorem doublesFrom_iff : DoublesFrom previous l ↔
    ∃ c, isSpecial c ∧ ['\\', c] <:+: previous.toList ++ l := by
  induction l generalizing previous with
  | nil =>
    refine iff_of_false id ?_
    rintro ⟨c, -, h⟩
    have hlength := h.length_le
    cases previous <;> simp at hlength
  | cons d l ih =>
    rw [DoublesFrom, ih]
    cases previous with
    | none => simp
    | some e =>
      have hcons (c : Char) : ['\\', c] <:+: e :: d :: l ↔
          ('\\' = e ∧ c = d) ∨ ['\\', c] <:+: d :: l := by
        rw [List.infix_cons_iff]
        simp
      simp only [Option.toList_some, List.singleton_append, hcons, and_or_left, exists_or,
        Option.some_inj]
      refine or_congr_left ⟨fun h => ⟨d, h.2, h.1.symm, rfl⟩, ?_⟩
      rintro ⟨c, hc, rfl, rfl⟩
      exact ⟨rfl, hc⟩

/-- A text is masked such that it can be read back, and nothing in it has a meaning of LaTeX's own,
unless lines may break in it and a special character stands right behind a backslash. -/
theorem unmasks_mask_iff (hyphenate : Bool) (text : String) :
    Unmasks (mask hyphenate text).toList (trim text.toList) ↔
      ¬ (hyphenate ∧ ∃ c, isSpecial c ∧ ['\\', c] <:+: text.toList) := by
  have hnone : (none : Option Char) ≠ some '\\' := nofun
  obtain ⟨before, hdrop, hdoubles⟩ := exists_dropWhile_maskFrom hyphenate text.toList hnone
  have hiff : DoublesFrom none text.toList ↔ ∃ c, isSpecial c ∧ ['\\', c] <:+: text.toList :=
    doublesFrom_iff
  rw [mask, String.toList_ofList, trim, trim, hdrop, trimEnd_maskFrom, ← hiff, ← hdoubles,
    ← doublesFrom_trimEnd]
  exact unmasks_maskFrom_iff

/-- Where lines may break, a subscript sign behind a backslash comes to stand by itself, and without line
breaks it is escaped. -/
theorem not_unmasks_mask_behind_slash :
    (mask true "\\_").toList = ['\\', '\\', '_'] ∧
      ¬ Unmasks (mask true "\\_").toList (trim "\\_".toList) ∧
      (mask false "\\_").toList = ['\\', '\\', '\\', '_'] := by
  have hmask : (mask true "\\_").toList = ['\\', '\\', '_'] := by decide +kernel
  refine ⟨hmask, fun h => ?_, by decide +kernel⟩
  rw [hmask, unmasks_escaped_iff] at h
  obtain ⟨_, h, -⟩ := h
  rw [unmasks_plain_iff (by decide) (by decide)] at h
  exact h.1 (by decide)

end MathTree.Text

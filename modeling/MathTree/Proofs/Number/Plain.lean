import MathTree.Number.RealText
import Mathlib.Data.List.TakeDrop
import Mathlib.Data.Nat.Digits.Defs
import Mathlib.Tactic.SplitIfs

/-!
# Which characters numbers are written with

Numbers are written with digits and letters, points and minus signs (`IsPlain`), so that nothing in
them has to be escaped in markup.
-/

namespace MathTree.Number

/-- The characters of numbers. -/
def isPlainChar (c : Char) : Bool := c.isAlphanum || c == '.' || c == '-'

/-- Whether a text has only characters of numbers. -/
def IsPlain (text : String) : Prop := ∀ c ∈ text.toList, isPlainChar c

namespace IsPlain

variable {a b : String} {l l' : List Char}

theorem append (ha : IsPlain a) (hb : IsPlain b) : IsPlain (a ++ b) := by
  intro c hc
  rw [String.toList_append, List.mem_append] at hc
  exact hc.elim (ha c) (hb c)

theorem left (h : IsPlain (a ++ b)) : IsPlain a := fun c hc =>
  h c (String.toList_append ▸ List.mem_append_left _ hc)

theorem right (h : IsPlain (a ++ b)) : IsPlain b := fun c hc =>
  h c (String.toList_append ▸ List.mem_append_right _ hc)

theorem ofList (h : ∀ c ∈ l, isPlainChar c) : IsPlain (String.ofList l) := by
  intro c hc
  rw [String.toList_ofList] at hc
  exact h c hc

end IsPlain

theorem isPlain_of_all {text : String} (h : text.toList.all isPlainChar) : IsPlain text :=
  List.all_eq_true.1 h

theorem toList_toString (n : Nat) : (toString n).toList = Nat.toDigits 10 n := by
  simp [toString, Nat.repr]

theorem isPlain_toString (n : Nat) : IsPlain (toString n) := by
  intro c hc
  rw [toList_toString] at hc
  have hdigit : c.isDigit := Nat.isDigit_of_mem_toDigits (by decide) (by decide) hc
  simp [isPlainChar, Char.isAlphanum, hdigit]

theorem isPlain_intText (n : Int) : IsPlain (intText n) := by
  unfold intText
  split_ifs
  · exact (isPlain_of_all rfl).append (isPlain_toString _)
  · exact isPlain_toString _

theorem isPlain_minusIf (negative : Bool) : IsPlain (minusIf negative) := by
  cases negative <;> exact isPlain_of_all rfl

theorem isPlain_toString_int (n : Int) : IsPlain (toString n) := by
  cases n with
  | ofNat n => exact isPlain_toString n
  | negSucc n => exact (isPlain_of_all rfl).append (isPlain_toString _)

/-- Digits with zeros in front or behind, and a point somewhere. -/
theorem isPlain_pointed {l l' : List Char} (h : ∀ c ∈ l, isPlainChar c)
    (h' : ∀ c ∈ l', isPlainChar c) :
    IsPlain (String.ofList (l ++ if l'.isEmpty then [] else '.' :: l')) := by
  refine .ofList fun c hc => ?_
  rcases List.mem_append.1 hc with hc | hc
  · exact h c hc
  · split_ifs at hc
    · cases hc
    · rcases List.mem_cons.1 hc with rfl | hc
      · rfl
      · exact h' c hc

theorem isPlain_scientific {mark : String} (hmark : IsPlain mark) (d : Digits) :
    IsPlain (d.scientific mark) := by
  have hdigits := isPlain_toString d.coefficient
  have hpointed := isPlain_pointed (fun c hc => hdigits c (List.mem_of_mem_take (i := 1) hc))
    fun c hc => hdigits c (List.mem_of_mem_drop (i := 1) hc)
  exact (hpointed.append hmark).append (isPlain_toString_int _)

theorem mem_padded {l : List Char} {n : Nat} (h : ∀ c ∈ l, isPlainChar c) :
    ∀ c ∈ List.replicate n '0' ++ l, isPlainChar c := by
  intro c hc
  rcases List.mem_append.1 hc with hc | hc
  · rw [List.eq_of_mem_replicate hc]
    rfl
  · exact h c hc

theorem isPlain_toText (d : Decimal) : IsPlain d.toText := by
  have hpadded (n : Nat) := mem_padded (n := n) (isPlain_toString d.mantissa)
  refine IsPlain.append ?_ (isPlain_pointed (fun c hc => hpadded _ c (List.mem_of_mem_take hc))
    fun c hc => hpadded _ c (List.mem_of_mem_drop hc))
  split_ifs <;> exact isPlain_of_all rfl

theorem isPlain_positional (d : Digits) : IsPlain d.positional := by
  have hdigits := isPlain_toString d.coefficient
  unfold Digits.positional
  dsimp only
  split_ifs
  · refine .ofList fun c hc => ?_
    rcases List.mem_append.1 hc with hc | hc
    · exact hdigits c hc
    · rw [List.eq_of_mem_replicate hc]
      rfl
  · refine .ofList fun c hc => ?_
    rcases List.mem_append.1 hc with hc | hc
    · exact mem_padded hdigits c (List.mem_of_mem_take hc)
    · rcases List.mem_cons.1 hc with rfl | hc
      · rfl
      · exact mem_padded hdigits c (List.mem_of_mem_drop hc)

namespace Binary64

variable (x : Binary64)

theorem isPlain_scientificText : IsPlain x.scientificText := by
  unfold scientificText
  split
  · exact isPlain_of_all rfl
  · exact (isPlain_minusIf _).append (isPlain_of_all rfl)
  · refine (isPlain_minusIf _).append ?_
    split_ifs
    · exact isPlain_of_all rfl
    · exact isPlain_scientific (isPlain_of_all rfl) _

theorem isPlain_positionalText : IsPlain x.positionalText := by
  unfold positionalText
  split
  · exact isPlain_of_all rfl
  · exact (isPlain_minusIf _).append (isPlain_of_all rfl)
  · refine (isPlain_minusIf _).append ?_
    split_ifs
    · exact isPlain_of_all rfl
    · exact isPlain_positional _

theorem isPlain_decimalText : IsPlain x.decimalText := by
  unfold decimalText
  split
  · exact isPlain_toText _
  · exact x.isPlain_positionalText

theorem isPlain_realText : IsPlain x.realText := by
  unfold realText
  split
  · exact isPlain_of_all rfl
  · exact (isPlain_minusIf _).append (isPlain_of_all rfl)
  · split
    · exact isPlain_intText _
    · split_ifs
      · exact x.isPlain_scientificText
      · exact x.isPlain_decimalText

end Binary64

/-- A text in scientific form is its mantissa, the mark and its exponent. -/
theorem eq_of_splitScientific? {text mantissa exponent : String}
    (h : splitScientific? text = some (mantissa, exponent)) :
    text = mantissa ++ "E" ++ exponent := by
  rw [splitScientific?, List.span_eq_takeWhile_dropWhile] at h
  cases hrest : text.toList.dropWhile (· != 'E') with
  | nil =>
    rw [hrest] at h
    cases h
  | cons mark rest =>
    rw [hrest] at h
    cases h
    have hmark : mark = 'E' := by
      have hstop := List.head?_dropWhile_not (· != 'E') text.toList
      rw [hrest] at hstop
      simpa using hstop
    have hwhole : text.toList = text.toList.takeWhile (· != 'E') ++ 'E' :: rest := by
      subst hmark
      rw [← hrest, List.takeWhile_append_dropWhile]
    rw [← String.toList_inj]
    simpa [String.toList_append] using hwhole

end MathTree.Number

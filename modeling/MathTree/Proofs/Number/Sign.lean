import MathTree.Proofs.Number.Canonical
import MathTree.Proofs.Number.Plain

/-!
# Leading minus signs

Which numbers are written with a minus sign in front.  A whole number is where it is below zero
(`startsWithMinus_intText`), and a real number only if it is below zero
(`Binary64.isNegative_of_startsWithMinus`).
-/

namespace MathTree

/-- Whether a text starts with a minus sign. -/
def StartsWithMinus (text : String) : Prop := text.toList.head? = some '-'

instance (text : String) : Decidable (StartsWithMinus text) := inferInstanceAs (Decidable (_ = _))

section

variable {a b : String} {c : Char} {l : List Char}

theorem startsWithMinus_minus (text : String) : StartsWithMinus ("-" ++ text) := by
  rw [StartsWithMinus, String.toList_append]
  rfl

theorem startsWithMinus_append (hb : ¬ StartsWithMinus b) :
    StartsWithMinus (a ++ b) ↔ StartsWithMinus a := by
  rw [StartsWithMinus, StartsWithMinus, String.toList_append]
  cases ha : a.toList with
  | nil => exact iff_of_false hb nofun
  | cons => rfl

theorem head?_append (ha : a.toList.head? = some c) (b : String) :
    (a ++ b).toList.head? = some c := by
  rw [String.toList_append, List.head?_append, ha, Option.some_or]

theorem not_startsWithMinus_append (ha : a.toList.head? = some c) (hc : c ≠ '-') (b : String) :
    ¬ StartsWithMinus (a ++ b) := fun h =>
  hc (Option.some.inj ((head?_append ha b).symm.trans h))

theorem not_startsWithMinus_ofList (h : ∀ c ∈ l, c ≠ '-') : ¬ StartsWithMinus (String.ofList l) := by
  intro hminus
  rw [StartsWithMinus, String.toList_ofList] at hminus
  exact h '-' (List.mem_of_head? hminus) rfl

end

namespace Number

theorem ne_minus_of_mem_toString {n : Nat} {c : Char} (hc : c ∈ (toString n).toList) : c ≠ '-' := by
  rintro rfl
  rw [toList_toString] at hc
  exact absurd (Nat.isDigit_of_mem_toDigits (by decide) (by decide) hc) (by decide)

theorem not_startsWithMinus_toString (n : Nat) : ¬ StartsWithMinus (toString n) := fun h =>
  ne_minus_of_mem_toString (List.mem_of_head? h) rfl

theorem startsWithMinus_intText (n : Int) : StartsWithMinus (intText n) ↔ n < 0 := by
  unfold intText
  split_ifs with hn
  · exact iff_of_true (startsWithMinus_minus _) hn
  · exact iff_of_false (not_startsWithMinus_toString _) hn

theorem startsWithMinus_minusIf {text : String} (h : ¬ StartsWithMinus text) (negative : Bool) :
    StartsWithMinus (minusIf negative ++ text) ↔ negative := by
  cases negative with
  | true => exact iff_of_true (startsWithMinus_minus text) rfl
  | false =>
    rw [startsWithMinus_append h]
    exact iff_of_false (by decide) (by decide)

/-! ### Digits -/

theorem ne_minus_of_mem_replicate {n : Nat} {c : Char} (hc : c ∈ List.replicate n '0') : c ≠ '-' := by
  rw [List.eq_of_mem_replicate hc]
  decide

theorem ne_minus_of_mem_append {l l' : List Char} (h : ∀ c ∈ l, c ≠ '-') (h' : ∀ c ∈ l', c ≠ '-') :
    ∀ c ∈ l ++ l', c ≠ '-' := fun c hc => (List.mem_append.1 hc).elim (h c) (h' c)

theorem ne_minus_of_mem_point {l : List Char} (h : ∀ c ∈ l, c ≠ '-') : ∀ c ∈ '.' :: l, c ≠ '-' := by
  intro c hc
  rcases List.mem_cons.1 hc with rfl | hc
  · decide
  · exact h c hc

/-- Digits, and others behind a point. -/
theorem not_startsWithMinus_pointed {l l' : List Char} (h : ∀ c ∈ l, c ≠ '-')
    (h' : ∀ c ∈ l', c ≠ '-') :
    ¬ StartsWithMinus (String.ofList (l ++ if l'.isEmpty then [] else '.' :: l')) := by
  refine not_startsWithMinus_ofList (ne_minus_of_mem_append h ?_)
  split_ifs
  · exact nofun
  · exact ne_minus_of_mem_point h'

theorem not_startsWithMinus_scientific (d : Digits) : ¬ StartsWithMinus (d.scientific "E") := by
  have hmark (text : String) : ¬ StartsWithMinus ("E" ++ text) :=
    not_startsWithMinus_append (c := 'E') rfl (by decide) text
  rw [Digits.scientific, String.append_assoc, startsWithMinus_append (hmark _)]
  exact not_startsWithMinus_pointed
    (fun c hc => ne_minus_of_mem_toString (List.mem_of_mem_take hc))
    (fun c hc => ne_minus_of_mem_toString (List.mem_of_mem_drop hc))

theorem not_startsWithMinus_positional (d : Digits) : ¬ StartsWithMinus d.positional := by
  have hdigits (c : Char) (hc : c ∈ (toString d.coefficient).toList) : c ≠ '-' :=
    ne_minus_of_mem_toString hc
  unfold Digits.positional
  dsimp only
  split_ifs
  · exact not_startsWithMinus_ofList
      (ne_minus_of_mem_append hdigits fun c => ne_minus_of_mem_replicate)
  · have hpadded (n : Nat) :=
      ne_minus_of_mem_append (fun c => ne_minus_of_mem_replicate (n := n)) hdigits
    exact not_startsWithMinus_ofList (ne_minus_of_mem_append
      (fun c hc => hpadded _ c (List.mem_of_mem_take hc))
      (ne_minus_of_mem_point fun c hc => hpadded _ c (List.mem_of_mem_drop hc)))

theorem startsWithMinus_toText (d : Decimal) : StartsWithMinus d.toText ↔ d.negative := by
  have hpadded (n : Nat) := ne_minus_of_mem_append (fun c => ne_minus_of_mem_replicate (n := n))
    fun c => ne_minus_of_mem_toString (n := d.mantissa)
  have hsign : (if d.negative then "-" else "") = minusIf d.negative := by
    cases d.negative <;> rfl
  rw [Decimal.toText, hsign]
  exact startsWithMinus_minusIf (not_startsWithMinus_pointed
    (fun c hc => hpadded _ c (List.mem_of_mem_take hc))
    fun c hc => hpadded _ c (List.mem_of_mem_drop hc)) _

/-! ### Reals -/

namespace Binary64

variable {x : Binary64} {negative : Bool} {m : Nat} {q : Int}

theorem toInt_of_toInt32? {n : Int32} (hx : x.value = .finite negative m q)
    (h : x.toInt32? = some n) :
    n.toInt = if negative then -(((ratio m q).1 / (ratio m q).2 : Nat) : Int)
      else ((ratio m q).1 / (ratio m q).2 : Nat) := by
  have hmin : Int32.minValue.toInt = -2 ^ 31 := rfl
  have hmax : Int32.maxValue.toInt = 2 ^ 31 - 1 := rfl
  simp only [toInt32?, hx, hmin, hmax] at h
  generalize hwhole : (if negative = true then -(((ratio m q).1 / (ratio m q).2 : Nat) : Int)
    else ((ratio m q).1 / (ratio m q).2 : Nat)) = whole at h ⊢
  split_ifs at h with hrange
  rw [← Option.some.inj h, Int32.toInt_ofInt_of_le hrange.2.1 (Int.lt_of_le_sub_one hrange.2.2)]

theorem negative_of_ofBinary64? {d : Decimal} (hx : x.value = .finite negative m q)
    (h : Decimal.ofBinary64? x = some d) : d.negative = negative := by
  simp only [Decimal.ofBinary64?, hx] at h
  split at h
  · cases h
    rfl
  · split at h
    all_goals
      obtain ⟨_, -, hscaled⟩ := Option.bind_eq_some_iff.1 h
      split at hscaled
      · obtain ⟨_, -, hwhole⟩ := Option.bind_eq_some_iff.1 hscaled
        cases hwhole
        rfl
      · cases hscaled
        rfl

theorem negative_of_startsWithMinus_decimalText (hx : x.value = .finite negative m q)
    (h : StartsWithMinus x.decimalText) : negative := by
  unfold decimalText at h
  split at h
  next d hd =>
    rw [startsWithMinus_toText] at h
    rw [← negative_of_ofBinary64? hx hd]
    exact (Bool.and_eq_true_iff.1 h).1
  next =>
    rw [positionalText, hx] at h
    refine (startsWithMinus_minusIf ?_ _).1 h
    split_ifs
    · decide
    · exact not_startsWithMinus_positional _

theorem negative_of_startsWithMinus_scientificText (hx : x.value = .finite negative m q)
    (h : StartsWithMinus x.scientificText) : negative := by
  rw [scientificText, hx] at h
  refine (startsWithMinus_minusIf ?_ _).1 h
  split_ifs
  · decide
  · exact not_startsWithMinus_scientific _

/-- Only a number below zero is written with a minus in front. -/
theorem isNegative_of_startsWithMinus (h : StartsWithMinus x.realText) : x.isNegative := by
  unfold realText at h
  unfold isNegative
  cases hx : x.value with
  | nan =>
    simp only [hx] at h
    exact absurd h (by decide)
  | infinite negative =>
    simp only [hx] at h
    exact (startsWithMinus_minusIf (by decide) negative).1 h
  | finite negative m q =>
    simp only [hx] at h
    cases hn : x.toInt32? with
    | some n =>
      rw [hn] at h
      have hneg := (startsWithMinus_intText _).1 h
      rw [toInt_of_toInt32? hx hn] at hneg
      cases negative with
      | false => exact absurd hneg (Int.not_lt.2 (Int.natCast_nonneg _))
      | true =>
        have hm : m ≠ 0 := by
          rintro rfl
          simp [ratio] at hneg
        simp [hm]
    | none =>
      rw [hn] at h
      have hm : m ≠ 0 := by
        rintro rfl
        rw [toInt32?_of_zero hx] at hn
        cases hn
      have hsign : negative := by
        dsimp only at h
        split_ifs at h
        · exact negative_of_startsWithMinus_scientificText hx h
        · exact negative_of_startsWithMinus_decimalText hx h
      simp [hsign, hm]

end Binary64

end Number

end MathTree

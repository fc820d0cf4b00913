import MathTree.Number.RealText

/-!
# Canonical numbers

All bits that are no number stand for the same, and so do those of the two zeros; any other number is
determined by its value (`Binary64.eq_of_value`).  Of each value `Binary64.canonical` takes one
number, so that two numbers are the same just if one number is taken for both (`Binary64.same_iff`).
Texts, signs and decimals do not tell a number from its canonical one.
-/

namespace MathTree.Number

namespace Binary64

/-- The value without the sign of a zero. -/
def Value.canonical : Value → Value
  | .finite negative m q => if m = 0 then .finite false 0 (-1074) else .finite negative m q
  | v => v

/-- One number for all that are the same. -/
def canonical (x : Binary64) : Binary64 :=
  match x.value with
  | .nan => nan
  | .infinite _ => x
  | .finite _ m _ => if m = 0 then zero false else x

variable {x y : Binary64}

/-! ### Values -/

/-- What a sign, a biased exponent and a fraction stand for. -/
def Value.ofParts (negative : Bool) (biased fraction : Nat) : Value :=
  if biased = 2047 then if fraction = 0 then .infinite negative else .nan
  else if biased = 0 then .finite negative fraction (-1074)
  else .finite negative (Nat.pow 2 52 + fraction) ((biased : Int) - 1075)

theorem Value.eq_of_ofParts {s s' : Bool} {b b' f f' : Nat} (hf : f < Nat.pow 2 52)
    (hf' : f' < Nat.pow 2 52) (h : ofParts s b f = ofParts s' b' f') (hnan : ofParts s b f ≠ .nan) :
    s = s' ∧ b = b' ∧ f = f' := by
  have h52 : Nat.pow 2 52 = 4503599627370496 := rfl
  rw [h52] at hf hf'
  grind [ofParts]

/-- A number is determined by its value. -/
theorem eq_of_value (h : x.value = y.value) (hx : x.value ≠ .nan) : x = y := by
  have hfraction (n : Nat) : n % Nat.pow 2 52 < Nat.pow 2 52 := Nat.mod_lt n (by decide)
  obtain ⟨hsign, hbiased, hrest⟩ := Value.eq_of_ofParts (hfraction _) (hfraction _) h hx
  have hsign' : x.bits.toNat / Nat.pow 2 63 = 1 ↔ y.bits.toNat / Nat.pow 2 63 = 1 := by
    rw [← beq_iff_eq, hsign, beq_iff_eq]
  have hbits : x.bits.toNat < Nat.pow 2 64 := x.bits.toNat_lt
  have hbits' : y.bits.toNat < Nat.pow 2 64 := y.bits.toNat_lt
  have h52 : Nat.pow 2 52 = 4503599627370496 := rfl
  have h11 : Nat.pow 2 11 = 2048 := rfl
  have h63 : Nat.pow 2 63 = 9223372036854775808 := rfl
  have h64 : Nat.pow 2 64 = 18446744073709551616 := rfl
  simp only [h52, h11, h63, h64] at hsign' hbiased hrest hbits hbits'
  have heq : x.bits.toNat = y.bits.toNat := by omega
  exact congrArg Binary64.mk (UInt64.toNat_inj.1 heq)

@[simp]
theorem value_nan : nan.value = .nan := by decide

@[simp]
theorem value_zero : (zero false).value = .finite false 0 (-1074) := by decide

theorem value_canonical (x : Binary64) : x.canonical.value = x.value.canonical := by
  cases h : x.value with
  | nan => simp [canonical, h, Value.canonical]
  | infinite => simp [canonical, h, Value.canonical]
  | finite negative m q => by_cases hm : m = 0 <;> simp [canonical, h, Value.canonical, hm]

theorem Value.canonical_eq_nan {v : Value} : v.canonical = .nan ↔ v = .nan := by
  cases v with
  | nan | infinite => rfl
  | finite negative m q => by_cases hm : m = 0 <;> simp [canonical, hm]

/-! ### Numbers that are the same -/

/-- Numbers are the same just if their values are, but for the sign of a zero. -/
theorem same_iff_value : x.same y ↔ x.value.canonical = y.value.canonical := by
  rw [same]
  generalize x.value = u, y.value = v
  rcases u with _ | _ | ⟨s, _ | m, q⟩ <;> rcases v with _ | _ | ⟨s', _ | m', q'⟩ <;>
    simp [Value.canonical]

theorem same_iff : x.same y ↔ x.canonical = y.canonical := by
  rw [same_iff_value, ← value_canonical, ← value_canonical]
  refine ⟨fun h => ?_, congrArg value⟩
  by_cases hx : x.value = .nan
  · have hy : y.value = .nan := by
      rwa [value_canonical, value_canonical, hx, eq_comm, Value.canonical_eq_nan.2 rfl,
        Value.canonical_eq_nan] at h
    rw [canonical, canonical, hx, hy]
  · refine eq_of_value h ?_
    rwa [value_canonical, ne_eq, Value.canonical_eq_nan]

/-! ### What is read off a number -/

/-- What does not tell apart what is no number, nor the two zeros, does not tell a number from its
canonical one. -/
theorem apply_canonical {α : Type} (f : Binary64 → α) (hnan : ∀ x, x.value = .nan → f x = f nan)
    (hzero : ∀ x negative q, x.value = .finite negative 0 q → f x = f (zero false)) (x : Binary64) :
    f x.canonical = f x := by
  rw [canonical]
  split
  next h => exact (hnan x h).symm
  next => rfl
  next negative m q h =>
    split
    next hm =>
      subst hm
      exact (hzero x negative q h).symm
    next => rfl

theorem isNan_canonical (x : Binary64) : x.canonical.isNan = x.isNan :=
  apply_canonical isNan (fun x h => by rw [isNan, isNan, h, value_nan])
    (fun x _ _ h => by rw [isNan, isNan, h, value_zero]; rfl) x

theorem isNegative_canonical (x : Binary64) : x.canonical.isNegative = x.isNegative :=
  apply_canonical isNegative (fun x h => by simp [isNegative, h])
    (fun x _ _ h => by simp [isNegative, h]) x

theorem toInt32?_of_zero {negative : Bool} {q : Int} (h : x.value = .finite negative 0 q) :
    x.toInt32? = some 0 := by
  have hmax : 0 ≤ Int32.maxValue.toInt := by decide
  rw [toInt32?, h]
  cases negative <;> simp [ratio, hmax]

theorem realText_canonical (x : Binary64) : x.canonical.realText = x.realText :=
  apply_canonical realText (fun x h => by simp [realText, h])
    (fun x _ _ h => by simp [realText, h, toInt32?_of_zero h, toInt32?_of_zero value_zero]) x

theorem decimal_of_nan (h : x.value = .nan) : Decimal.ofBinary64? x = none := by
  rw [Decimal.ofBinary64?, h]

theorem decimal_of_zero {negative : Bool} {q : Int} (h : x.value = .finite negative 0 q) :
    Decimal.ofBinary64? x = some ⟨negative, 0, 0⟩ := by
  simp [Decimal.ofBinary64?, h]

theorem decimalText_canonical (x : Binary64) : x.canonical.decimalText = x.decimalText := by
  refine apply_canonical decimalText (fun x h => ?_) (fun x negative q h => ?_) x
  · simp [decimalText, positionalText, decimal_of_nan h, decimal_of_nan value_nan, h]
  · simp [decimalText, decimal_of_zero h, decimal_of_zero value_zero, Decimal.normalize, Decimal.trim]

end Binary64

end MathTree.Number

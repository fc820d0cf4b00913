import MathTree.Proofs.Number.PowerOfTen
import Mathlib.Data.Rat.Defs
import Mathlib.Algebra.Order.Field.Basic

/-!
# Decimals that are whole numbers

A decimal that was rounded is compared with a whole number, and still the comparison is exact: with
enough decimals, a rounded quotient is whole just if the quotient is (`Decimal.fit?_same_iff`).  There is
room for enough of them in a quotient of numbers of 32 bits (`Decimal.quotient?_same_iff`).  With a whole
mantissa and an exponent, `Decimal.expand_same_iff`, the comparison fails where the power of ten has left
the decimals: a tiny number is taken for zero, and zero times a huge power for nothing at all.
-/

namespace MathTree.Number

variable {num den n m : Nat} {k : Int}

/-- A whole number from its sign and its size. -/
def signed (negative : Bool) (m : Nat) : Int := if negative then -(m : Int) else m

theorem natAbs_signed (negative : Bool) (m : Nat) : (signed negative m).natAbs = m := by
  cases negative <;> simp [signed]

theorem signed_natAbs (n : Int) : signed (decide (n < 0)) n.natAbs = n := by
  by_cases hn : n < 0
  · rw [signed, if_pos (decide_eq_true hn)]
    omega
  · rw [signed, if_neg (ne_true_of_eq_false (decide_eq_false hn))]
    omega

theorem signed_not (negative : Bool) (m : Nat) : signed (!negative) m = -signed negative m := by
  cases negative <;> simp [signed]

theorem signed_eq_zero {negative : Bool} : signed negative m = 0 ↔ m = 0 := by
  cases negative <;> simp [signed]

theorem signed_mul (negative : Bool) (m n : Nat) : signed negative (m * n) = signed negative m * n := by
  cases negative <;> simp [signed]

/-- Rounding errs by half of a denominator at most. -/
theorem halfEven_near (num : Nat) (hden : 0 < den) :
    2 * (halfEven num den * den) ≤ 2 * num + den ∧ 2 * num ≤ 2 * (halfEven num den * den) + den := by
  have hdiv := Nat.div_add_mod' num den
  have hmod := Nat.mod_lt num hden
  have hsucc : (num / den + 1) * den = num / den * den + den := Nat.succ_mul ..
  simp only [halfEven]
  split_ifs <;> omega

namespace Decimal

open Binary64

variable {negative : Bool} {scale s : Nat}

theorem same_ofInt :
    Decimal.same ⟨negative, m, scale⟩ (.ofInt k) ↔ signed negative m = k * 10 ^ scale := by
  have hk : (if k < 0 then -((k.natAbs * 10 ^ scale : Nat) : Int) else (k.natAbs * 10 ^ scale : Nat))
      = k * 10 ^ scale := by
    push_cast
    split_ifs with hneg
    · rw [abs_of_neg hneg]
      ring
    · rw [abs_of_nonneg (Int.not_lt.1 hneg)]
  rw [← hk]
  simp [same, scaledTo, ofInt, signed]

theorem ofInt_same_iff {v : Int} : (ofInt v).same (.ofInt k) ↔ v = k := by
  have hv : ofInt v = ⟨decide (v < 0), v.natAbs, 0⟩ := rfl
  rw [hv, same_ofInt, signed_natAbs, pow_zero, mul_one]

theorem eq_of_same {d : Decimal} {k' : Int} (h : d.same (.ofInt k)) (h' : d.same (.ofInt k')) :
    k = k' := by
  rw [same_ofInt] at h h'
  exact mul_right_cancel₀ (pow_ne_zero d.scale (by decide)) (h.symm.trans h')

/-- What is fitted is rounded at one scale, which is no smaller than one at which there is room. -/
theorem exists_fit? (negative : Bool) (hle : s ≤ scale) (hroom : halfEven (num * 10 ^ s) den < bound) :
    ∃ s', s ≤ s' ∧
      fit? negative num den scale = some ⟨negative, halfEven (num * 10 ^ s') den, s'⟩ := by
  induction scale with
  | zero =>
    obtain rfl : s = 0 := by omega
    refine ⟨0, Nat.le_refl 0, ?_⟩
    rw [Nat.pow_zero, Nat.mul_one] at hroom ⊢
    rw [fit?, if_pos hroom]
  | succ scale ih =>
    rw [fit?]
    split_ifs with hfits
    · exact ⟨scale + 1, hle, rfl⟩
    · have hne : s ≠ scale + 1 := by
        rintro rfl
        exact hfits hroom
      exact ih (by omega)

/-- At a scale that tells all quotients of the denominator apart, a rounded quotient is a whole number
just if the quotient is that number. -/
theorem halfEven_eq_mul_iff {p : Nat} (hden : 0 < den) (hfine : den < 2 * p) :
    (halfEven (num * p) den : Int) = k * p ↔ (num : Int) = k * den := by
  constructor
  · intro h
    obtain ⟨hle, hge⟩ := halfEven_near (num * p) hden
    zify at hle hge hfine
    rw [h] at hle hge
    -- the error, which is a multiple of the scale, is less than it
    have herror : k * den - num = 0 := by
      by_contra hne
      rcases Int.lt_or_gt_of_ne hne with hneg | hpos
      · nlinarith
      · nlinarith
    omega
  · intro h
    have hk : 0 ≤ k := by
      by_contra hneg
      nlinarith
    obtain ⟨K, rfl⟩ := Int.eq_ofNat_of_zero_le hk
    have hnum : num * p = K * p * den := by
      zify
      rw [h]
      ring
    rw [hnum, halfEven_mul_self hden, Nat.cast_mul]

theorem fit?_same_iff (hden : 0 < den) (hle : s ≤ scale) (hfine : den < 2 * 10 ^ s)
    (hroom : halfEven (num * 10 ^ s) den < bound) :
    (fit? negative num den scale).any (·.same (.ofInt k)) ↔ signed negative num = k * den := by
  obtain ⟨s', hs, hfit⟩ := exists_fit? negative hle hroom
  have hfine' : den < 2 * 10 ^ s' :=
    hfine.trans_le (Nat.mul_le_mul_left 2 (Nat.pow_le_pow_right (by decide) hs))
  have hiff (k : Int) : (halfEven (num * 10 ^ s') den : Int) = k * (10 ^ s' : Nat) ↔ num = k * den :=
    halfEven_eq_mul_iff hden hfine'
  push_cast at hiff
  rw [hfit, Option.any_some, same_ofInt]
  cases negative with
  | false => exact hiff k
  | true =>
    specialize hiff (-k)
    simp only [signed, if_true]
    constructor
    · intro h
      linarith [hiff.1 (by linarith)]
    · intro h
      linarith [hiff.2 (by linarith)]

/-! ### Quotients and products -/

/-- Eighteen decimals, for which there is room, tell all quotients of 32 bits apart. -/
theorem quotient?_same_iff {n d : Int} (hn : n.natAbs ≤ 2 ^ 31) (hd : d.natAbs ≤ 2 ^ 31)
    (hne : d ≠ 0) : (quotient? n d).any (·.same (.ofInt k)) ↔ n = k * d := by
  have hden : 0 < d.natAbs := Int.natAbs_pos.2 hne
  have hbound : bound = 2 ^ 96 := rfl
  have hroom : halfEven (n.natAbs * 10 ^ 18) d.natAbs ≤ n.natAbs * 10 ^ 18 + 1 :=
    halfEven_le hden (Nat.lt_of_lt_of_le (Nat.lt_succ_self _) (Nat.le_mul_of_pos_right _ hden))
  rw [quotient?, fit?_same_iff (s := 18) hden (by decide) (by omega) (by omega)]
  by_cases hneg : d < 0
  · have hsign : (decide (n < 0) != decide (d < 0)) = !decide (n < 0) := by
      simp only [hneg, decide_true, Bool.bne_true]
    have habs : (d.natAbs : Int) = -d := by omega
    rw [hsign, habs, signed_not, signed_natAbs, mul_neg, neg_inj]
  · have hsign : (decide (n < 0) != decide (d < 0)) = decide (n < 0) := by
      simp only [hneg, decide_false, Bool.bne_false]
    have habs : (d.natAbs : Int) = d := by omega
    rw [hsign, habs, signed_natAbs]

theorem mul?_zero (a : Decimal) : a.mul? ⟨false, 0, 0⟩ = some ⟨false, 0, 0⟩ := if_pos (.inr rfl)

theorem same_zero : Decimal.same ⟨negative, 0, 0⟩ (.ofInt k) ↔ k = 0 := by
  rw [same_ofInt, signed_eq_zero.2 rfl, pow_zero, mul_one, eq_comm]

theorem mul?_eq_fit? {power : Nat} (hm : m ≠ 0) (hpower : power ≠ 0) (hn : n ≤ 28) :
    Decimal.mul? ⟨negative, m, 0⟩ ⟨false, power, n⟩ = fit? negative (m * power) (10 ^ n) n := by
  have hmin : min maxScale n = n := Nat.min_eq_right hn
  simp only [mul?, hm, hpower, or_self, if_false, Nat.zero_add, hmin, Bool.bne_false]
  rfl

/-- A product with a power of ten above one. -/
theorem mul?_same_iff {power : Nat} (hpower : power ≠ 0) (hk : k.natAbs < 2 ^ 96) :
    (Decimal.mul? ⟨negative, m, 0⟩ ⟨false, power, 0⟩).any (·.same (.ofInt k)) ↔
      signed negative m * power = k := by
  by_cases hm : m = 0
  · subst hm
    rw [mul?, if_pos (.inl rfl), Option.any_some, same_zero, signed_eq_zero.2 rfl, zero_mul, eq_comm]
  rw [mul?_eq_fit? hm hpower (by decide), ← signed_mul]
  by_cases hroom : m * power < bound
  · have hone : halfEven (m * power * 10 ^ 0) (10 ^ 0) < bound := by
      rwa [halfEven_mul_self (by decide)]
    rw [fit?_same_iff (s := 0) (by decide) (by decide) (by decide) hone]
    simp
  · have hnone : fit? negative (m * power) (10 ^ 0) 0 = none := by
      rw [fit?, Nat.pow_zero, halfEven_one, if_neg hroom]
    have hlarge : signed negative (m * power) ≠ k := by
      rintro rfl
      rw [natAbs_signed] at hk
      exact hroom hk
    rw [hnone]
    exact iff_of_false nofun hlarge

/-- A product with a power of ten below one. -/
theorem mul?_tenth_same_iff (hm : m < bound) (hn : n ≤ 28) :
    (Decimal.mul? ⟨negative, m, 0⟩ ⟨false, 1, n⟩).any (·.same (.ofInt k)) ↔
      signed negative m = k * 10 ^ n := by
  have hpos : 0 < 10 ^ n := Nat.pow_pos (by decide)
  by_cases hzero : m = 0
  · subst hzero
    rw [mul?, if_pos (.inl rfl), Option.any_some, same_zero, signed_eq_zero.2 rfl, zero_eq_mul,
      or_iff_left (pow_ne_zero n (by decide))]
  · rw [mul?_eq_fit? hzero Nat.one_ne_zero hn, Nat.mul_one,
      fit?_same_iff (s := n) hpos (Nat.le_refl n) (by omega) (by rwa [halfEven_mul_self hpos])]
    push_cast
    rfl

end Decimal

/-! ### Mantissas and exponents -/

/-- Powers of a rational number, told in whole numbers. -/
theorem mul_zpow_eq_iff {b : Nat} (hb : b ≠ 0) (m k q : Int) :
    (m : ℚ) * (b : ℚ) ^ q = k ↔ m * b ^ q.toNat = k * b ^ (-q).toNat := by
  obtain ⟨n, rfl | rfl⟩ := q.eq_nat_or_neg
  · have hn : (-(n : Int)).toNat = 0 := by omega
    rw [hn, Int.toNat_natCast, zpow_natCast, pow_zero, mul_one]
    exact_mod_cast Iff.rfl
  · have hn : (-(n : Int)).toNat = 0 := by omega
    have hpow : (b : ℚ) ^ n ≠ 0 := pow_ne_zero n (Nat.cast_ne_zero.2 hb)
    rw [hn, Int.neg_neg, Int.toNat_natCast, zpow_neg, zpow_natCast, pow_zero, mul_one,
      mul_inv_eq_iff_eq_mul₀ hpow]
    exact_mod_cast Iff.rfl

/-- Whether a floating-point number is a whole number. -/
def Binary64.IsWhole (x : Binary64) (m : Int) : Prop :=
  ∃ negative s q, x.value = .finite negative s q ∧ (signed negative s : ℚ) * 2 ^ q = m

theorem Binary64.IsWhole.unique {x : Binary64} {M M' : Int} (h : x.IsWhole M) (h' : x.IsWhole M') :
    M = M' := by
  obtain ⟨negative, s, q, hx, hM⟩ := h
  obtain ⟨negative', s', q', hx', hM'⟩ := h'
  rw [hx] at hx'
  cases hx'
  exact_mod_cast hM.symm.trans hM'

namespace Decimal

open Binary64

variable {x : Binary64} {e M : Int}

theorem ofBinary64?_of_isWhole (hx : x.IsWhole M) (hM : M.natAbs < 2 ^ 53) :
    ∃ negative, ofBinary64? x = some ⟨negative, M.natAbs, 0⟩ ∧ signed negative M.natAbs = M := by
  obtain ⟨negative, s, q, hvalue, hwhole⟩ := hx
  refine ⟨negative, ?_⟩
  have hint : signed negative s * 2 ^ q.toNat = M * 2 ^ (-q).toNat :=
    (mul_zpow_eq_iff two_ne_zero (signed negative s) M q).1 (by exact_mod_cast hwhole)
  have hnat : s * 2 ^ q.toNat = M.natAbs * 2 ^ (-q).toNat := by
    have hsize := congrArg Int.natAbs hint
    rwa [Int.natAbs_mul, Int.natAbs_mul, natAbs_signed, Int.natAbs_pow, Int.natAbs_pow] at hsize
  have hsigned : signed negative M.natAbs = M := by
    refine mul_right_cancel₀ (pow_ne_zero (-q).toNat (two_ne_zero (α := Int))) ?_
    rw [← hint]
    have hcast := signed_mul negative s (2 ^ q.toNat)
    have hcast' := signed_mul negative M.natAbs (2 ^ (-q).toNat)
    rw [← hnat] at hcast'
    push_cast at hcast hcast'
    rw [← hcast, ← hcast']
  refine ⟨?_, hsigned⟩
  by_cases hs : s = 0
  · subst hs
    have hzero : M.natAbs = 0 := by
      rw [Nat.zero_mul, eq_comm, mul_eq_zero] at hnat
      exact hnat.resolve_right (pow_ne_zero _ two_ne_zero)
    rw [hzero]
    exact decimal_of_zero hvalue
  · exact ofBinary64?_of_whole hvalue hs hnat hM

theorem mul_ne_of_natAbs_lt {p : Nat} (hM : M ≠ 0) (hk : k.natAbs < p) : M * p ≠ k := by
  rintro rfl
  rw [Int.natAbs_mul, Int.natAbs_natCast] at hk
  exact absurd (Nat.le_mul_of_pos_left p (Int.natAbs_pos.2 hM)) (Nat.not_le_of_lt hk)

/-- What has come above `10 ^ 22` is no number of 64 bits. -/
theorem mul_ten_pow_ne (hM : M ≠ 0) (hn : 22 < n) (hk : k.natAbs ≤ 2 ^ 63) : M * 10 ^ n ≠ k := by
  have hlt : k.natAbs < 10 ^ n :=
    calc k.natAbs ≤ 2 ^ 63 := hk
      _ < 10 ^ 22 := by decide
      _ ≤ 10 ^ n := Nat.pow_le_pow_right (by decide) (Nat.le_of_lt hn)
  exact_mod_cast mul_ne_of_natAbs_lt hM hlt

/-- A whole number times a power of ten is compared exactly, unless the power has left the decimals:
then the product is zero below them, and no number above them. -/
theorem expand_same_iff (hx : x.IsWhole M) (hM : M.natAbs < 2 ^ 53) (hk : k.natAbs ≤ 2 ^ 63) :
    ((do let a ← ofBinary64? x
         let power ← ofBinary64? (powerOfTen e)
         a.mul? power : Option Decimal).any (·.same (.ofInt k)) ↔ (M : ℚ) * 10 ^ e = k) ↔
      ¬ (k = 0 ∧ (M = 0 ∧ 28 < e ∨ M ≠ 0 ∧ e < -28)) := by
  obtain ⟨negative, hdecimal, hsigned⟩ := ofBinary64?_of_isWhole hx hM
  have hten := mul_zpow_eq_iff (b := 10) (by decide) M k e
  rw [Nat.cast_ofNat] at hten
  simp only [hten, hdecimal, Option.bind_eq_bind, Option.bind_some]
  by_cases hneg : e < 0
  · obtain ⟨n, rfl⟩ : ∃ n : Nat, e = -n := ⟨(-e).toNat, by omega⟩
    have hexponents : (-(n : Int)).toNat = 0 ∧ (-(-(n : Int))).toNat = n := by omega
    rw [hexponents.1, hexponents.2, pow_zero, mul_one]
    by_cases hfar : 28 < n
    · rw [ofBinary64?_powerOfTen_neg_of_lt hfar, Option.bind_some, mul?_zero, Option.any_some,
        same_zero]
      by_cases hzero : k = 0
      · rw [hzero, zero_mul]
        omega
      · have hne : k * 10 ^ n ≠ M := mul_ten_pow_ne hzero (by omega) (by omega)
        exact iff_of_true (iff_of_false hzero hne.symm) (by omega)
    · rw [ofBinary64?_powerOfTen_neg (by omega) (by omega), Option.bind_some,
        mul?_tenth_same_iff (hM.trans (by decide)) (by omega), hsigned]
      exact iff_of_true Iff.rfl (by omega)
  · obtain ⟨n, rfl⟩ : ∃ n : Nat, e = n := ⟨e.toNat, by omega⟩
    have hexponents : (-(n : Int)).toNat = 0 := by omega
    rw [hexponents, Int.toNat_natCast, pow_zero, mul_one]
    by_cases hfar : 28 < n
    · rw [ofBinary64?_powerOfTen_of_lt hfar, Option.bind_none, Option.any_none]
      by_cases hzero : M = 0
      · have hfar' : (28 : Int) < n := by omega
        simp [hzero, hfar', eq_comm]
      · have hne : M * 10 ^ n ≠ k := mul_ten_pow_ne hzero (by omega) hk
        exact iff_of_true (iff_of_false nofun hne) (by omega)
    · by_cases hexact : n ≤ 22
      · rw [ofBinary64?_powerOfTen hexact, Option.bind_some, mul?_same_iff (by positivity) (by omega),
          hsigned]
        refine iff_of_true ?_ (by omega)
        push_cast
        rfl
      · obtain ⟨P, hP, hpower⟩ := exists_ofBinary64?_powerOfTen (Nat.lt_of_not_le hexact) (by omega)
        rw [hpower, Option.bind_some, mul?_same_iff (by omega) (by omega), hsigned]
        refine iff_of_true ?_ (by omega)
        by_cases hzero : M = 0
        · rw [hzero, zero_mul, zero_mul]
        · have hne : M * 10 ^ n ≠ k := mul_ten_pow_ne hzero (by omega) hk
          exact iff_of_false (mul_ne_of_natAbs_lt hzero (by omega)) hne

end Decimal

end MathTree.Number

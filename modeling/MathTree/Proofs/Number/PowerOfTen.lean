import MathTree.Proofs.Number.Canonical
import Mathlib.Tactic.Linarith
import Mathlib.Tactic.Ring

/-!
# Powers of ten as decimals

A power of ten is multiplied up in 53 binary digits and then becomes a decimal of 96 bits with at most 28
places.  `ofBinary64?_powerOfTen` and `ofBinary64?_powerOfTen_neg` say that it is exact up to `10 ^ 22` and
from `10 ^ (-28)` on; `exists_ofBinary64?_powerOfTen` that it may be rounded up to `10 ^ 28`, but is never
taken for a number of 64 bits.  Above, `ofBinary64?_powerOfTen_of_lt`, there is no decimal, and below,
`ofBinary64?_powerOfTen_neg_of_lt`, the decimal is zero.

The last two go on for every exponent, which no table shows.  `Reaches` bounds a number from below by a
power of two, and no product falls below the product of such bounds, however it is rounded.

`ofBinary64?_of_whole` is what becomes of a whole number.
-/

namespace MathTree.Number

variable {num den n m : Nat}

/-! ### Rounding a quotient -/

theorem le_halfEven (hden : 0 < den) (h : n * den ≤ num) : n ≤ halfEven num den := by
  have hq : n ≤ num / den := (Nat.le_div_iff_mul_le hden).2 h
  simp only [halfEven]
  split_ifs <;> omega

theorem halfEven_le (hden : 0 < den) (h : num < n * den) : halfEven num den ≤ n := by
  have hq : num / den < n := (Nat.div_lt_iff_lt_mul hden).2 h
  simp only [halfEven]
  split_ifs <;> omega

namespace Binary64

variable {x y : Binary64} {a b k : Nat}

theorem pow_eq (b n : Nat) : Nat.pow b n = b ^ n := rfl

/-- At an exponent that leaves fifty-three digits a quotient is below `2 ^ 53`. -/
theorem scaled_lt (num : Nat) (hden : den ≠ 0) {q : Int} (hq : (num.log2 : Int) - den.log2 - 52 ≤ q) :
    num * 2 ^ (-q).toNat < 2 ^ 53 * (den * 2 ^ q.toNat) := by
  have hle : num.log2 + 1 + (-q).toNat ≤ 53 + den.log2 + q.toNat := by omega
  calc num * 2 ^ (-q).toNat < 2 ^ (num.log2 + 1) * 2 ^ (-q).toNat :=
        Nat.mul_lt_mul_of_pos_right Nat.lt_log2_self (Nat.two_pow_pos _)
    _ = 2 ^ (num.log2 + 1 + (-q).toNat) := (Nat.pow_add ..).symm
    _ ≤ 2 ^ (53 + den.log2 + q.toNat) := Nat.pow_le_pow_right Nat.two_pos hle
    _ = 2 ^ 53 * (2 ^ den.log2 * 2 ^ q.toNat) := by rw [Nat.pow_add, Nat.pow_add, Nat.mul_assoc]
    _ ≤ 2 ^ 53 * (den * 2 ^ q.toNat) :=
        Nat.mul_le_mul_left _ (Nat.mul_le_mul_right _ (Nat.log2_self_le hden))

/-- The nearest number has a significand of fifty-three digits that was rounded at some exponent, or is an
infinity. -/
theorem nearest_cases (negative : Bool) (hnum : num ≠ 0) (hden : den ≠ 0) : ∃ q : Int, -1074 ≤ q ∧
    q ≤ max (-1074) ((num.log2 : Int) - den.log2 - 53) + 1 ∧
    num * 2 ^ (-q).toNat < 2 ^ 53 * (den * 2 ^ q.toNat) ∧
    ∀ magnitude, magnitude = (q + 1074).toNat * 2 ^ 52
        + halfEven (num * 2 ^ (-q).toNat) (den * 2 ^ q.toNat) →
      nearest negative num den
        = if magnitude < 2047 * 2 ^ 52 then withSign negative magnitude else infinity negative := by
  have hone : nearest negative num den =
      let low : Int := max (-1074) ((num.log2 : Int) - den.log2 - 53)
      let q := if num * 2 ^ (-low).toNat < 2 ^ 53 * (den * 2 ^ low.toNat) then low else low + 1
      let magnitude := (q + 1074).toNat * 2 ^ 52
        + halfEven (num * 2 ^ (-q).toNat) (den * 2 ^ q.toNat)
      if magnitude < 2047 * 2 ^ 52 then withSign negative magnitude else infinity negative := by
    rw [nearest, if_neg hnum]
    rfl
  rw [hone]
  generalize hlow : max (-1074) ((num.log2 : Int) - den.log2 - 53) = low
  by_cases h : num * 2 ^ (-low).toNat < 2 ^ 53 * (den * 2 ^ low.toNat)
  · refine ⟨low, by omega, by omega, h, ?_⟩
    rintro magnitude rfl
    simp only [if_pos h]
  · refine ⟨low + 1, by omega, by omega, scaled_lt num hden (by omega), ?_⟩
    rintro magnitude rfl
    simp only [if_neg h]

theorem bits_withSign {magnitude : Nat} (h : magnitude < 2 ^ 64) :
    (withSign false magnitude).bits.toNat = magnitude := by
  have hmod : (UInt64.ofNat magnitude).toNat = magnitude % 2 ^ 64 := UInt64.toNat_ofNat'
  rw [withSign, if_neg Bool.false_ne_true, hmod, Nat.mod_eq_of_lt h]

theorem bits_infinity : (infinity false).bits.toNat = 2047 * 2 ^ 52 := by decide

/-- A number without a sign is an infinity or what its bits beyond the fraction say. -/
theorem value_of_bits (h : x.bits.toNat ≤ 2047 * 2 ^ 52) :
    x.bits.toNat = 2047 * 2 ^ 52 ∧ x.value = .infinite false ∨
    x.bits.toNat < 2 ^ 52 ∧ x.value = .finite false x.bits.toNat (-1074) ∨
    ∃ biased fraction, 0 < biased ∧ biased < 2047 ∧ fraction < 2 ^ 52 ∧
      x.bits.toNat = biased * 2 ^ 52 + fraction ∧
      x.value = .finite false (2 ^ 52 + fraction) ((biased : Int) - 1075) := by
  have hvalue : x.value = .ofParts (x.bits.toNat / Nat.pow 2 63 == 1)
      (x.bits.toNat / Nat.pow 2 52 % Nat.pow 2 11) (x.bits.toNat % Nat.pow 2 52) := rfl
  have hsign : (x.bits.toNat / Nat.pow 2 63 == 1) = false := by
    rw [beq_eq_false_iff_ne, pow_eq]
    omega
  have hbiased : x.bits.toNat / Nat.pow 2 52 % Nat.pow 2 11 = x.bits.toNat / 2 ^ 52 := by
    rw [pow_eq, pow_eq]
    omega
  rw [hsign, hbiased, pow_eq] at hvalue
  rw [hvalue, Value.ofParts, pow_eq]
  split_ifs with htop hfraction hzero
  · exact .inl ⟨by omega, rfl⟩
  · omega
  · have hmod : x.bits.toNat % 2 ^ 52 = x.bits.toNat := by omega
    exact .inr (.inl ⟨by omega, by rw [hmod]⟩)
  · exact .inr (.inr ⟨_, x.bits.toNat % 2 ^ 52, Nat.pos_of_ne_zero hzero, by omega, by omega,
      by omega, rfl⟩)

/-! ### Lower bounds -/

/-- Whether a number is at least `2 ^ k`, or infinite.  The bits grow with the numbers. -/
def Reaches (x : Binary64) (k : Nat) : Prop :=
  min (k + 1023) 2047 * 2 ^ 52 ≤ x.bits.toNat ∧ x.bits.toNat ≤ 2047 * 2 ^ 52

theorem reaches_infinity (k : Nat) : (infinity false).Reaches k := by
  rw [Reaches, bits_infinity]
  omega

theorem Reaches.mono {j : Nat} (h : x.Reaches k) (hjk : j ≤ k) : x.Reaches j :=
  have hmin : min (j + 1023) 2047 ≤ min (k + 1023) 2047 := by omega
  ⟨(Nat.mul_le_mul_right _ hmin).trans h.1, h.2⟩

theorem Reaches.value (h : x.Reaches k) : x.value = .infinite false ∨
    ∃ m q, x.value = .finite false m q ∧ 2 ^ 52 ≤ m ∧ m < 2 ^ 53 ∧ (k : Int) - 52 ≤ q := by
  obtain ⟨hle, hlt⟩ := h
  rcases value_of_bits hlt with ⟨-, hvalue⟩ | ⟨hbits, -⟩ | ⟨biased, fraction, -, htop, hf, hbits, hvalue⟩
  · exact .inl hvalue
  · omega
  · exact .inr ⟨_, _, hvalue, by omega, by omega, by omega⟩

theorem le_scaled {j : Nat} {q : Int} (h : 2 ^ k * den ≤ num)
    (hj : j + q.toNat ≤ k + (-q).toNat) :
    2 ^ j * (den * 2 ^ q.toNat) ≤ num * 2 ^ (-q).toNat :=
  calc 2 ^ j * (den * 2 ^ q.toNat) = den * 2 ^ (j + q.toNat) := by rw [Nat.pow_add]; ring
    _ ≤ den * 2 ^ (k + (-q).toNat) :=
        Nat.mul_le_mul_left _ (Nat.pow_le_pow_right Nat.two_pos hj)
    _ = 2 ^ k * den * 2 ^ (-q).toNat := by rw [Nat.pow_add]; ring
    _ ≤ num * 2 ^ (-q).toNat := Nat.mul_le_mul_right _ h

theorem reaches_nearest (hden : den ≠ 0) (h : 2 ^ k * den ≤ num) :
    (nearest false num den).Reaches k := by
  have hpos : 0 < 2 ^ k * den := Nat.mul_pos (Nat.two_pow_pos k) (Nat.pos_of_ne_zero hden)
  obtain ⟨q, hq, -, hlt, hnearest⟩ := nearest_cases false (Nat.ne_of_gt (hpos.trans_le h)) hden
  rw [hnearest _ rfl]
  -- at a smaller exponent the significand would have more than fifty-three digits
  have hexponent : (k : Int) - 52 ≤ q := by
    by_contra hsmall
    exact absurd (le_scaled (j := 53) h (by omega)) (Nat.not_le_of_lt hlt)
  have hsignificand : q = k - 52 →
      2 ^ 52 ≤ halfEven (num * 2 ^ (-q).toNat) (den * 2 ^ q.toNat) := fun hq =>
    le_halfEven (Nat.mul_pos (Nat.pos_of_ne_zero hden) (Nat.two_pow_pos _))
      (le_scaled h (by omega))
  split_ifs with hfinite
  · rw [Reaches, bits_withSign (by omega)]
    omega
  · exact reaches_infinity k

/-- A product reaches what its factors reach together. -/
theorem Reaches.mul (hx : x.Reaches a) (hy : y.Reaches b) : (x.mul y).Reaches (a + b) := by
  rcases hx.value with hx | ⟨m, q, hx, hm, -, hq⟩ <;>
    rcases hy.value with hy | ⟨n, r, hy, hn, -, hr⟩ <;> rw [Binary64.mul, hx, hy]
  · exact reaches_infinity _
  · have hne : n ≠ 0 := by omega
    simp only [if_neg hne]
    exact reaches_infinity _
  · have hne : m ≠ 0 := by omega
    simp only [if_neg hne]
    exact reaches_infinity _
  · refine reaches_nearest (Nat.ne_of_gt (Nat.two_pow_pos _)) ?_
    calc 2 ^ (a + b) * 2 ^ (-(q + r)).toNat = 2 ^ (a + b + (-(q + r)).toNat) := (Nat.pow_add ..).symm
      _ ≤ 2 ^ (52 + 52 + (q + r).toNat) := Nat.pow_le_pow_right Nat.two_pos (by omega)
      _ = 2 ^ 52 * 2 ^ 52 * 2 ^ (q + r).toNat := by rw [Nat.pow_add, Nat.pow_add]
      _ ≤ m * n * 2 ^ (q + r).toNat := Nat.mul_le_mul_right _ (Nat.mul_le_mul hm hn)

/-- Repeated squaring reaches as much as the factors do one by one. -/
theorem reaches_powerLoop (rounds : Nat) {acc base : Binary64} (hn : n < 2 ^ rounds)
    (hbase : base.Reaches b) (hacc : acc.Reaches a) :
    (powerLoop rounds n base acc).Reaches (a + b * n) := by
  induction rounds generalizing n base acc a b with
  | zero =>
    obtain rfl : n = 0 := by omega
    exact hacc
  | succ rounds ih =>
    have hacc' : (if n % 2 = 1 then acc.mul base else acc).Reaches (a + b * (n % 2)) := by
      split_ifs with hodd
      · rw [hodd, Nat.mul_one]
        exact hacc.mul hbase
      · have heven : n % 2 = 0 := by omega
        rwa [heven]
    have hn' : b * n = b * (n % 2) + (b + b) * (n / 2) := by
      conv_lhs => rw [← Nat.mod_add_div n 2]
      ring
    rw [powerLoop, hn', ← Nat.add_assoc]
    generalize (if n % 2 = 1 then acc.mul base else acc) = acc' at hacc'
    split_ifs with hlast
    · rwa [hlast]
    · exact ih (by omega) (hbase.mul hbase) hacc'

/-- Ten is above eight, and no rounding takes a product below a power of two that it has reached. -/
theorem reaches_powerOfTen (n : Nat) : (powerOfTen n).Reaches (3 * n) := by
  have hten : ten.Reaches 3 := ⟨by decide, by decide⟩
  have hone : one.Reaches 0 := ⟨by decide, by decide⟩
  have hloop := reaches_powerLoop (n.log2 + 1) Nat.lt_log2_self hten hone
  rw [Nat.zero_add] at hloop
  have hpower : powerOfTen n = powerLoop (n.log2 + 1) n ten one := by
    rw [powerOfTen, Int.natAbs_natCast, if_neg (by omega)]
  rwa [hpower]

theorem powerOfTen_neg (hn : 0 < n) : powerOfTen (-(n : Int)) = (powerOfTen n).inverse := by
  rw [powerOfTen, powerOfTen, Int.natAbs_neg, Int.natAbs_natCast, if_pos (by omega),
    if_neg (by omega)]

/-! ### Inverses -/

/-- The inverse of what is large is so small that its bits stay below those of `2 ^ -94`. -/
theorem bits_inverse_le (h : x.Reaches 96) : x.inverse.bits.toNat ≤ 928 * 2 ^ 52 := by
  rcases h.value with hx | ⟨m, q, hx, hm, -, hq⟩
  · rw [inverse, hx]
    decide
  · have hne : m ≠ 0 := by omega
    have hq' : (-q).toNat = 0 := by omega
    have hden : m * 2 ^ q.toNat ≠ 0 :=
      Nat.ne_of_gt (Nat.mul_pos (Nat.pos_of_ne_zero hne) (Nat.two_pow_pos _))
    obtain ⟨r, hr, hle, hlt, hnearest⟩ :=
      nearest_cases false Nat.one_ne_zero hden
    have hlog : 96 ≤ (m * 2 ^ q.toNat).log2 := by
      refine (Nat.le_log2 hden).2 ?_
      calc 2 ^ 96 ≤ 2 ^ (52 + q.toNat) := Nat.pow_le_pow_right Nat.two_pos (by omega)
        _ = 2 ^ 52 * 2 ^ q.toNat := Nat.pow_add ..
        _ ≤ m * 2 ^ q.toNat := Nat.mul_le_mul_right _ hm
    have hone : Nat.log2 1 = 0 := by decide
    rw [inverse, hx]
    simp only [if_neg hne, ratio, hq', pow_eq, Nat.pow_zero]
    rw [hnearest _ rfl]
    have hsignificand : halfEven (1 * 2 ^ (-r).toNat) (m * 2 ^ q.toNat * 2 ^ r.toNat) ≤ 2 ^ 53 :=
      halfEven_le (Nat.mul_pos (Nat.pos_of_ne_zero hden) (Nat.two_pow_pos _)) hlt
    rw [if_pos (by omega), bits_withSign (by omega)]
    omega

/-- What has such bits is at most `2 ^ -95`. -/
theorem value_of_bits_le (h : x.bits.toNat ≤ 928 * 2 ^ 52) :
    ∃ m n : Nat, x.value = .finite false m (-n) ∧ 0 < n ∧ m * 2 ^ 95 ≤ 2 ^ n := by
  have hbound {m j n : Nat} (hm : m ≤ 2 ^ j) (hj : j + 95 ≤ n) : m * 2 ^ 95 ≤ 2 ^ n :=
    calc m * 2 ^ 95 ≤ 2 ^ j * 2 ^ 95 := Nat.mul_le_mul_right _ hm
      _ = 2 ^ (j + 95) := (Nat.pow_add ..).symm
      _ ≤ 2 ^ n := Nat.pow_le_pow_right Nat.two_pos hj
  rcases value_of_bits (h.trans (by decide)) with
    ⟨hbits, -⟩ | ⟨hbits, hvalue⟩ | ⟨biased, fraction, -, -, hf, hbits, hvalue⟩
  · omega
  · exact ⟨_, 1074, hvalue, by decide, hbound (Nat.le_of_lt hbits) (by omega)⟩
  · have hq : (biased : Int) - 1075 = -((1075 - biased : Nat) : Int) := by omega
    rw [hq] at hvalue
    refine ⟨_, _, hvalue, by omega, ?_⟩
    by_cases htop : biased = 928
    · exact hbound (j := 52) (by omega) (by omega)
    · exact hbound (j := 53) (by omega) (by omega)

end Binary64

/-! ### Decimals of what is large or small -/

namespace Decimal

open Binary64

variable {x : Binary64} {q e : Int}

/-- There is no room for a number from `2 ^ 96` on. -/
theorem giveFives?_of_le (hm : m < 2 ^ 96) (h : 2 ^ 96 ≤ m * 2 ^ n) : giveFives? n m n = none := by
  induction n generalizing m with
  | zero => omega
  | succ n ih =>
    rw [giveFives?, pow_eq]
    have he : ((n + 1 : Nat) : Int) - 1 = n := by omega
    split_ifs with hroom hlarge
    · rw [he]
      refine ih (by omega) (h.trans (Nat.le_of_eq ?_))
      rw [Nat.pow_succ]
      ring
    · rfl
    · omega

theorem ofBinary64?_of_reaches (h : x.Reaches 96) : ofBinary64? x = none := by
  rcases h.value with hx | ⟨m, q, hx, hm, hlt, hq⟩
  · rw [ofBinary64?, hx]
  · obtain ⟨n, rfl⟩ : ∃ n : Nat, q = n := ⟨q.toNat, by omega⟩
    have hne : m ≠ 0 := by omega
    have hlarge : 2 ^ 96 ≤ m * 2 ^ n :=
      calc 2 ^ 96 ≤ 2 ^ (52 + n) := Nat.pow_le_pow_right Nat.two_pos (by omega)
        _ = 2 ^ 52 * 2 ^ n := Nat.pow_add ..
        _ ≤ m * 2 ^ n := Nat.mul_le_mul_right _ hm
    have hnone := giveFives?_of_le (hlt.trans (by decide)) hlarge
    have hneg : ¬ (n : Int) < 0 := by omega
    simp only [ofBinary64?, hx, if_neg hne, if_neg hneg, Int.toNat_natCast, hnone]
    rfl

/-- Fives are taken without making the number larger, and something is left of it. -/
theorem takeFives_spec (n : Nat) (hm : 0 < m) (e : Int) : ∃ M E : Nat,
    takeFives n m e = (M, e + E) ∧ E ≤ n ∧ 0 < M ∧ M * 10 ^ E ≤ m * 5 ^ n := by
  induction n generalizing m e with
  | zero => exact ⟨m, 0, by simp [takeFives], Nat.le_refl 0, hm, Nat.le_refl _⟩
  | succ n ih =>
    -- a half goes with a ten, which is what the five comes to
    have hhalf (hhalf : 0 < m / 2) : ∃ M E : Nat, takeFives n (m / 2) (e + 1) = (M, e + E) ∧
        E ≤ n + 1 ∧ 0 < M ∧ M * 10 ^ E ≤ m * 5 ^ (n + 1) := by
      obtain ⟨M, E, heq, hle, hpos, hval⟩ := ih hhalf (e + 1)
      refine ⟨M, E + 1, by rw [heq]; congr 1; omega, by omega, hpos, ?_⟩
      have htwo : 2 * (m / 2) ≤ m := Nat.mul_div_le m 2
      calc M * 10 ^ (E + 1) = 10 * (M * 10 ^ E) := by rw [Nat.pow_succ]; ring
        _ ≤ 10 * (m / 2 * 5 ^ n) := Nat.mul_le_mul_left _ hval
        _ = 2 * (m / 2) * 5 ^ (n + 1) := by rw [Nat.pow_succ]; ring
        _ ≤ m * 5 ^ (n + 1) := Nat.mul_le_mul_right _ htwo
    rw [takeFives]
    split_ifs with heven hroom
    · exact hhalf (by omega)
    · obtain ⟨M, E, heq, hle, hpos, hval⟩ := ih (m := 5 * m) (by omega) e
      refine ⟨M, E, heq, by omega, hpos, hval.trans (Nat.le_of_eq ?_)⟩
      rw [Nat.pow_succ]
      ring
    · have hbound : bound = 2 ^ 96 := rfl
      exact hhalf (by omega)

theorem dropTo_of_le (h : m ≤ 9 * 10 ^ n) (scale : Nat) : dropTo (n + 1) m scale = (0, 0) := by
  induction n generalizing m scale with
  | zero => rw [dropTo, if_pos (by omega)]
  | succ n ih =>
    rw [dropTo]
    split_ifs with hzero
    · rfl
    · refine ih ?_ _
      rw [dropDecimal]
      rw [Nat.pow_succ] at h
      split_ifs <;> omega

/-- What is at most `2 ^ -95` vanishes. -/
theorem ofBinary64?_of_small (hx : x.value = .finite false m (-(n : Int))) (hn : 0 < n)
    (h : m * 2 ^ 95 ≤ 2 ^ n) : ofBinary64? x = some ⟨false, 0, 0⟩ := by
  by_cases hm : m = 0
  · rw [hm] at hx
    exact decimal_of_zero hx
  obtain ⟨M, E, heq, hE, hM, hle⟩ := takeFives_spec n (Nat.pos_of_ne_zero hm) (-(n : Int))
  have hscale : M * 2 ^ 95 ≤ 10 ^ (n - E) := by
    refine Nat.le_of_mul_le_mul_right (c := 10 ^ E) ?_ (Nat.pow_pos (by decide))
    calc M * 2 ^ 95 * 10 ^ E = M * 10 ^ E * 2 ^ 95 := by ring
      _ ≤ m * 5 ^ n * 2 ^ 95 := Nat.mul_le_mul_right _ hle
      _ = m * 2 ^ 95 * 5 ^ n := by ring
      _ ≤ 2 ^ n * 5 ^ n := Nat.mul_le_mul_right _ h
      _ = 10 ^ (n - E) * 10 ^ E := by
        rw [← Nat.mul_pow, ← Nat.pow_add, Nat.sub_add_cancel hE]
  have hdecimals : 29 ≤ n - E := by
    by_contra hfew
    have hpower : 10 ^ (n - E) ≤ 10 ^ 28 := Nat.pow_le_pow_right (by decide) (by omega)
    omega
  obtain ⟨k, hk⟩ : ∃ k, n - E = maxScale + (k + 1) := ⟨n - E - 29, by rw [maxScale]; omega⟩
  have hdrop : M ≤ 9 * 10 ^ k := by
    rw [hk, maxScale, ← Nat.add_assoc, Nat.add_right_comm, Nat.pow_add] at hscale
    omega
  have hsigns : -(n : Int) < 0 ∧ ¬ 0 < -(n : Int) + E ∧ (-(-(n : Int) + E)).toNat = n - E := by omega
  simp only [ofBinary64?, hx, if_neg hm, if_pos hsigns.1, if_neg hsigns.2.1, Int.neg_neg,
    Int.toNat_natCast, heq, hsigns.2.2, Option.bind_eq_bind, Option.bind_some]
  rw [hk, Nat.add_sub_cancel_left, dropTo_of_le hdrop]
  rfl

theorem ofBinary64?_inverse (h : x.Reaches 96) : ofBinary64? x.inverse = some ⟨false, 0, 0⟩ := by
  obtain ⟨m, n, hx, hn, hle⟩ := value_of_bits_le (bits_inverse_le h)
  exact ofBinary64?_of_small hx hn hle

/-! ### Decimals of whole numbers -/

theorem takeFives_two_pow (n M : Nat) (e : Int) : takeFives n (M * 2 ^ n) e = (M, e + n) := by
  induction n generalizing e with
  | zero => simp [takeFives]
  | succ n ih =>
    have hhalf : M * 2 ^ (n + 1) / 2 = M * 2 ^ n := by
      rw [Nat.pow_succ, ← Nat.mul_assoc, Nat.mul_div_cancel _ Nat.two_pos]
    have heven : M * 2 ^ (n + 1) % 2 = 0 := by
      rw [Nat.pow_succ, ← Nat.mul_assoc, Nat.mul_mod_left]
    rw [takeFives, if_pos heven, hhalf, ih]
    congr 1
    omega

theorem giveFives?_two_pow (h : m * 2 ^ n < 2 ^ 95) : giveFives? n m n = some (m * 2 ^ n, 0) := by
  induction n generalizing m with
  | zero => simp [giveFives?]
  | succ n ih =>
    have hdouble : 2 * m * 2 ^ n = m * 2 ^ (n + 1) := by
      rw [Nat.pow_succ]
      ring
    have hroom : m < Nat.pow 2 95 :=
      (Nat.le_mul_of_pos_right m (Nat.two_pow_pos _)).trans_lt h
    have he : ((n + 1 : Nat) : Int) - 1 = n := by omega
    rw [giveFives?, if_pos hroom, he, ih (by rwa [hdouble]), hdouble]

/-- A whole number with a significand in binary is that number in decimals. -/
theorem ofBinary64?_of_whole {negative : Bool} {M : Nat} (hx : x.value = .finite negative m q)
    (hm : m ≠ 0) (hM : m * 2 ^ q.toNat = M * 2 ^ (-q).toNat) (hlt : M < 2 ^ 53) :
    ofBinary64? x = some ⟨negative, M, 0⟩ := by
  by_cases hq : q < 0
  · obtain ⟨n, hn⟩ : ∃ n : Nat, q = -n := ⟨(-q).toNat, by omega⟩
    have hpowers : q.toNat = 0 ∧ (-q).toNat = n := by omega
    rw [hpowers.1, hpowers.2, Nat.pow_zero, Nat.mul_one] at hM
    subst hM
    simp only [ofBinary64?, hx, if_neg hm, if_pos hq, hpowers.2, takeFives_two_pow]
    rw [hn, Int.add_left_neg]
    rfl
  · obtain ⟨n, rfl⟩ : ∃ n : Nat, q = n := ⟨q.toNat, by omega⟩
    have hpowers : (-(n : Int)).toNat = 0 := by omega
    rw [hpowers, Nat.pow_zero, Nat.mul_one, Int.toNat_natCast] at hM
    simp only [ofBinary64?, hx, if_neg hm, if_neg hq, Int.toNat_natCast,
      giveFives?_two_pow (hM.trans_lt hlt |>.trans (by decide)), hM]
    rfl

/-! ### Decimals of powers of ten -/

theorem ofBinary64?_powerOfTen (hn : n ≤ 22) :
    ofBinary64? (powerOfTen (n : Int)) = some ⟨false, 10 ^ n, 0⟩ := by
  have htable : ∀ n : Nat, n < 23 → ofBinary64? (powerOfTen (n : Int)) = some ⟨false, 10 ^ n, 0⟩ := by
    decide +kernel
  exact htable n (Nat.lt_succ_of_le hn)

/-- These powers may be rounded, but stay far above the numbers of 64 bits. -/
theorem exists_ofBinary64?_powerOfTen (hn : 22 < n) (hn' : n ≤ 28) :
    ∃ P, 2 ^ 63 < P ∧ ofBinary64? (powerOfTen (n : Int)) = some ⟨false, P, 0⟩ := by
  have htable : ∀ n : Nat, n < 29 → 22 < n → (ofBinary64? (powerOfTen (n : Int))).map
      (fun d => (d.negative, d.scale, decide (2 ^ 63 < d.mantissa))) = some (false, 0, true) := by
    decide +kernel
  obtain ⟨⟨negative, P, scale⟩, hd, hrest⟩ :=
    Option.map_eq_some_iff.1 (htable n (Nat.lt_succ_of_le hn') hn)
  simp only [Prod.mk.injEq, decide_eq_true_eq] at hrest
  obtain ⟨rfl, rfl, hP⟩ := hrest
  exact ⟨P, hP, hd⟩

theorem ofBinary64?_powerOfTen_of_lt (hn : 28 < n) :
    ofBinary64? (powerOfTen (n : Int)) = none := by
  by_cases hfar : 32 ≤ n
  · exact ofBinary64?_of_reaches ((reaches_powerOfTen n).mono (by omega))
  · have htable : ∀ n : Nat, n < 32 → 28 < n → ofBinary64? (powerOfTen (n : Int)) = none := by
      decide +kernel
    exact htable n (Nat.lt_of_not_le hfar) hn

theorem ofBinary64?_powerOfTen_neg (hpos : 0 < n) (hn : n ≤ 28) :
    ofBinary64? (powerOfTen (-(n : Int))) = some ⟨false, 1, n⟩ := by
  have htable : ∀ n : Nat, n < 29 → 0 < n →
      ofBinary64? (powerOfTen (-(n : Int))) = some ⟨false, 1, n⟩ := by
    decide +kernel
  exact htable n (Nat.lt_succ_of_le hn) hpos

theorem ofBinary64?_powerOfTen_neg_of_lt (hn : 28 < n) :
    ofBinary64? (powerOfTen (-(n : Int))) = some ⟨false, 0, 0⟩ := by
  by_cases hfar : 32 ≤ n
  · rw [powerOfTen_neg (by omega)]
    exact ofBinary64?_inverse ((reaches_powerOfTen n).mono (by omega))
  · have htable : ∀ n : Nat, n < 32 → 28 < n →
        ofBinary64? (powerOfTen (-(n : Int))) = some ⟨false, 0, 0⟩ := by
      decide +kernel
    exact htable n (Nat.lt_of_not_le hfar) hn

end Decimal

end MathTree.Number

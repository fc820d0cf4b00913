/-!
# Rounding a quotient

`halfEven num den` is the whole number nearest to `num / den`, where a half goes to the even
neighbour.
-/

namespace MathTree.Number

/-- The whole number nearest to `num / den`; a half goes to the even neighbour. -/
def halfEven (num den : Nat) : Nat :=
  let q := num / den
  let r := num % den
  if 2 * r < den then q
  else if den < 2 * r then q + 1
  else if q % 2 = 0 then q else q + 1

theorem halfEven_mul_self {n d : Nat} (h : 0 < d) : halfEven (n * d) d = n := by
  simp [halfEven, Nat.mul_div_cancel n h, h]

theorem halfEven_one (n : Nat) : halfEven n 1 = n := by
  have h : halfEven (n * 1) 1 = n := halfEven_mul_self Nat.zero_lt_one
  rwa [Nat.mul_one] at h

end MathTree.Number

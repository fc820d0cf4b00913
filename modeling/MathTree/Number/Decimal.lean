import MathTree.Number.Binary64

/-!
# Decimals of bounded size

A `Decimal` is `± mantissa / 10 ^ scale` with at most twenty-eight decimals and a mantissa below
`2 ^ 96`.  A result that is not such a number is rounded once, half to even, at the largest scale at
which it fits.  `Decimal.same` compares values, so that `1.0` is `1`.
-/

namespace MathTree.Number

/-- The number `± mantissa / 10 ^ scale`. -/
structure Decimal where
  negative : Bool
  mantissa : Nat
  scale : Nat
  deriving DecidableEq, Repr

namespace Decimal

/-- The first mantissa that is too large. -/
def bound : Nat := Nat.pow 2 96

/-- The largest number of decimals. -/
def maxScale : Nat := 28

/-- The value times `10 ^ n`, where `n` is at least the scale. -/
def scaledTo (d : Decimal) (n : Nat) : Int :=
  let magnitude : Nat := d.mantissa * Nat.pow 10 (n - d.scale)
  if d.negative then -(magnitude : Int) else magnitude

/-- Whether two decimals are the same number. -/
def same (a b : Decimal) : Bool :=
  let n := max a.scale b.scale
  a.scaledTo n == b.scaledTo n

def ofInt (n : Int) : Decimal := ⟨decide (n < 0), n.natAbs, 0⟩

def isZero (d : Decimal) : Bool := d.mantissa == 0

/-- `± num / den`, rounded half to even at the largest scale up to the given one at which the
mantissa fits, if there is one. -/
def fit? (negative : Bool) (num den : Nat) : (scale : Nat) → Option Decimal
  | 0 =>
    let m := halfEven num den
    if m < bound then some ⟨negative, m, 0⟩ else none
  | scale + 1 =>
    let m := halfEven (num * Nat.pow 10 (scale + 1)) den
    if m < bound then some ⟨negative, m, scale + 1⟩ else fit? negative num den scale

/-- `n / d`, for a divisor that is not zero. -/
def quotient? (n d : Int) : Option Decimal :=
  fit? ((n < 0) != (d < 0)) n.natAbs d.natAbs maxScale

/-- The product, unless it is too large. -/
def mul? (a b : Decimal) : Option Decimal :=
  if a.mantissa = 0 ∨ b.mantissa = 0 then some ⟨false, 0, 0⟩
  else
    fit? (a.negative != b.negative) (a.mantissa * b.mantissa) (Nat.pow 10 (a.scale + b.scale))
      (min maxScale (a.scale + b.scale))

/-- A mantissa and a scale without trailing zeros among the decimals. -/
def trim : (mantissa scale : Nat) → Nat × Nat
  | m, 0 => (m, 0)
  | m, scale + 1 => if m % 10 = 0 then trim (m / 10) scale else (m, scale + 1)

/-- The same number with as few decimals as possible; zero has no sign. -/
def normalize (d : Decimal) : Decimal :=
  let (m, scale) := trim d.mantissa d.scale
  ⟨d.negative && m != 0, m, scale⟩

/-- All digits, with as many decimals as the scale says. -/
def toText (d : Decimal) : String :=
  let digits := (toString d.mantissa).toList
  let padded := List.replicate (d.scale + 1 - digits.length) '0' ++ digits
  let whole := padded.take (padded.length - d.scale)
  let decimals := padded.drop (padded.length - d.scale)
  (if d.negative then "-" else "")
    ++ String.ofList (whole ++ if decimals.isEmpty then [] else '.' :: decimals)

/-! ### From binary to decimal

`m * 2 ^ q` is `m * 5 ^ (-q) * 10 ^ q`, so that a factor of two is a factor of ten and a factor of
one fifth.  The functions below take the factors of five one at a time, keep the mantissa below its
bound by giving up its last binary digits, and at last give up decimals. -/

/-- Multiplies a mantissa by `5 ^ steps`.  A factor of two in the mantissa turns a five into a ten,
and a mantissa without room for a five is halved first. -/
def takeFives : (steps m : Nat) → (e : Int) → Nat × Int
  | 0, m, e => (m, e)
  | steps + 1, m, e =>
    if m % 2 = 0 then takeFives steps (m / 2) (e + 1)
    else if 5 * m < bound then takeFives steps (5 * m) e
    else takeFives steps (m / 2) (e + 1)

/-- Divides a mantissa by `5 ^ steps`, as a doubling and a division by ten where there is room. -/
def giveFives? : (steps m : Nat) → (e : Int) → Option (Nat × Int)
  | 0, m, e => some (m, e)
  | steps + 1, m, e =>
    if m < Nat.pow 2 95 then giveFives? steps (2 * m) (e - 1)
    else if 2 * e > (steps + 1 : Nat) then none
    else giveFives? steps (m / 5) e

/-- Multiplies a mantissa by `10 ^ steps`, if there is room. -/
def takeTens? : (steps m : Nat) → Option Nat
  | 0, m => some m
  | steps + 1, m => if 10 * m < bound then takeTens? steps (10 * m) else none

/-- Drops the last decimal, rounding by its digit alone. -/
def dropDecimal (m : Nat) : Nat := m / 10 + if 5 ≤ m % 10 then 1 else 0

/-- Drops decimals down to the largest scale; a mantissa that vanishes is zero. -/
def dropTo : (steps m scale : Nat) → Nat × Nat
  | 0, m, scale => (m, scale)
  | steps + 1, m, scale => if m / 10 = 0 then (0, 0) else dropTo steps (dropDecimal m) (scale - 1)

/-- Drops decimals while the mantissa has more digits than a floating-point number tells apart. -/
def dropExcess : (m scale : Nat) → Nat × Nat
  | m, 0 => (m, 0)
  | m, scale + 1 => if Nat.pow 2 52 ≤ m then dropExcess (dropDecimal m) scale else (m, scale + 1)

/-- The decimal for a floating-point number, if it is finite and not too large. -/
def ofBinary64? (x : Binary64) : Option Decimal :=
  match x.value with
  | .nan | .infinite _ => none
  | .finite negative m q =>
    if m = 0 then some ⟨negative, 0, 0⟩
    else do
      let (m, e) ←
        if q < 0 then some (takeFives (-q).toNat m q) else giveFives? q.toNat m q
      if 0 < e then
        return ⟨negative, ← takeTens? e.toNat m, 0⟩
      let scale := (-e).toNat
      let (m, scale) := dropTo (scale - maxScale) m scale
      let (m, scale) := dropExcess m scale
      let (m, scale) := trim m scale
      return ⟨negative, m, scale⟩

end Decimal

end MathTree.Number

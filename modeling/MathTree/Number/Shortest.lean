import MathTree.Number.Binary64

/-!
# Shortest decimals

The shortest decimal that reads back as a given floating-point number.  All reals that round to
`m * 2 ^ q` form an interval around it (`Span`); among the decimals `c * 10 ^ e` in the interval
`shortest` takes one of the fewest digits, among those one nearest to the number, and of two equally
near ones the larger.
-/

namespace MathTree.Number

/-- The decimal `coefficient * 10 ^ exponent`. -/
structure Digits where
  coefficient : Nat
  exponent : Int
  deriving DecidableEq, Repr

/-- The reals that round to a number: those from `low` to `high` times `num / den`, the ends
included if `closed`, around the number `middle * num / den`. -/
structure Span where
  low : Nat
  middle : Nat
  high : Nat
  num : Nat
  den : Nat
  closed : Bool

namespace Span

/-- The neighbours of `m * 2 ^ q` lie `2 ^ q` away, save that the lower one of a power of two is
half as far.  An end is a tie and rounds to the even significand. -/
def around (m : Nat) (q : Int) : Span :=
  let below := if m = Nat.pow 2 52 ∧ -1074 < q then 1 else 2
  let unit := Binary64.ratio 1 (q - 2)
  { low := 4 * m - below, middle := 4 * m, high := 4 * m + 2, num := unit.1, den := unit.2,
    closed := m % 2 == 0 }

/-- Whether `a / b` lies in the interval. -/
def contains (s : Span) (a b : Nat) : Bool :=
  let low := s.low * s.num * b
  let high := s.high * s.num * b
  let x := a * s.den
  if s.closed then low ≤ x && x ≤ high else low < x && x < high

end Span

/-- How often `num / den` has to be multiplied by ten until it is at least one; in at most `bound`
steps. -/
def leadingZeros : (bound num den : Nat) → Nat
  | 0, _, _ => 0
  | bound + 1, num, den => if den ≤ num then 0 else leadingZeros bound (10 * num) den + 1

/-- The exponent `k` with `10 ^ (k - 1) ≤ num / den < 10 ^ k`. -/
def decimalOrder (num den : Nat) : Int :=
  if den ≤ num then (Nat.toDigits 10 (num / den)).length
  else 1 - (leadingZeros (den.log2 + 1) num den : Int)

/-- The point with `n` digits in the interval that is nearest to its middle, where `k` is the order
of the middle.  Only the two neighbours of the middle on that grid can be in the interval if any
point of the grid is. -/
def gridPoint? (s : Span) (k : Int) (n : Nat) : Option Digits :=
  let e : Int := k - n
  let gnum := Nat.pow 10 e.toNat
  let gden := Nat.pow 10 (-e).toNat
  let c := s.middle * s.num * gden / (s.den * gnum)
  let lower := s.contains (c * gnum) gden
  let upper := s.contains ((c + 1) * gnum) gden
  let nearLower := 2 * s.middle * s.num * gden < (2 * c + 1) * gnum * s.den
  if lower && (nearLower || !upper) then some ⟨c, e⟩
  else if upper then if c + 1 = Nat.pow 10 n then some ⟨1, k⟩ else some ⟨c + 1, e⟩
  else none

/-- The shortest decimal that rounds to `m * 2 ^ q`.  Seventeen digits always suffice. -/
def shortest (m : Nat) (q : Int) : Digits :=
  let s := Span.around m q
  let k := decimalOrder (s.middle * s.num) s.den
  ((List.range 17).findSome? fun i => gridPoint? s k (i + 1)).getD ⟨0, 0⟩

namespace Digits

/-- The exponent of the first digit. -/
def order (d : Digits) : Int := d.exponent + ((toString d.coefficient).length - 1 : Nat)

/-- One digit before the point, the others after it, and the exponent behind a mark. -/
def scientific (mark : String) (d : Digits) : String :=
  let text := (toString d.coefficient).toList
  let fraction := text.drop 1
  String.ofList (text.take 1 ++ if fraction.isEmpty then [] else '.' :: fraction)
    ++ mark ++ toString d.order

/-- All digits written out, without an exponent. -/
def positional (d : Digits) : String :=
  let text := (toString d.coefficient).toList
  let zeros (n : Nat) : List Char := List.replicate n '0'
  if 0 ≤ d.exponent then String.ofList (text ++ zeros d.exponent.toNat)
  else
    let places := (-d.exponent).toNat
    let padded := zeros (places + 1 - text.length) ++ text
    String.ofList (padded.take (padded.length - places) ++ '.' :: padded.drop (padded.length - places))

end Digits

end MathTree.Number

import MathTree.Number.Rounding

/-!
# Binary floating-point numbers

A `Binary64` is a floating-point number of 64 bits, kept as its bits.  `Binary64.value` says which
number the bits stand for: not a number, an infinity, or `± m * 2 ^ q`.  All arithmetic is exact on
that value and rounds once, by `Binary64.nearest`, to the nearest number of the format with ties to
the even significand.
-/

namespace MathTree.Number

/-- A floating-point number of 64 bits. -/
structure Binary64 where
  bits : UInt64
  deriving DecidableEq, Repr

namespace Binary64

/-- What a floating-point number stands for; a finite one is `± significand * 2 ^ exponent`. -/
inductive Value where
  | nan
  | infinite (negative : Bool)
  | finite (negative : Bool) (significand : Nat) (exponent : Int)
  deriving DecidableEq, Repr

/-- The bits hold a sign, eleven bits of exponent and fifty-two of fraction.  The largest exponent
is that of the infinities and of what is no number, the least that of the numbers without a leading
one. -/
def value (x : Binary64) : Value :=
  let n := x.bits.toNat
  let negative := n / Nat.pow 2 63 == 1
  let biased : Nat := n / Nat.pow 2 52 % Nat.pow 2 11
  let fraction : Nat := n % Nat.pow 2 52
  if biased = 2047 then if fraction = 0 then .infinite negative else .nan
  else if biased = 0 then .finite negative fraction (-1074)
  else .finite negative (Nat.pow 2 52 + fraction) ((biased : Int) - 1075)

/-- The sign, put in front of the other bits. -/
def withSign (negative : Bool) (magnitude : Nat) : Binary64 :=
  ⟨UInt64.ofNat (if negative then Nat.pow 2 63 + magnitude else magnitude)⟩

def nan : Binary64 := withSign false (2047 * Nat.pow 2 52 + Nat.pow 2 51)

def infinity (negative : Bool) : Binary64 := withSign negative (2047 * Nat.pow 2 52)

def zero (negative : Bool) : Binary64 := withSign negative 0

def one : Binary64 := withSign false (1023 * Nat.pow 2 52)

/-- Ten. -/
def ten : Binary64 := withSign false (1026 * Nat.pow 2 52 + Nat.pow 2 50)

def isNan (x : Binary64) : Bool := x.value == .nan

/-- Whether a number is below zero; the negative zero is not. -/
def isNegative (x : Binary64) : Bool :=
  match x.value with
  | .nan => false
  | .infinite negative => negative
  | .finite negative m _ => negative && m != 0

/-- Whether two numbers are the same value: both zeros are one value, and so is all that is no
number. -/
def same (x y : Binary64) : Bool :=
  match x.value, y.value with
  | .nan, .nan => true
  | .finite _ 0 _, .finite _ 0 _ => true
  | u, v => u == v

/-- `m * 2 ^ q` as a numerator and a denominator. -/
def ratio (m : Nat) (q : Int) : Nat × Nat := (m * Nat.pow 2 q.toNat, Nat.pow 2 (-q).toNat)

/-- The number of the format nearest to `± num / den`, ties to the even significand. -/
def nearest (negative : Bool) (num den : Nat) : Binary64 :=
  if num = 0 then zero negative
  else
    let scaled (q : Int) : Nat × Nat := (num * Nat.pow 2 (-q).toNat, den * Nat.pow 2 q.toNat)
    let low : Int := max (-1074) ((num.log2 : Int) - den.log2 - 53)
    let q := if (scaled low).1 < Nat.pow 2 53 * (scaled low).2 then low else low + 1
    let m := halfEven (scaled q).1 (scaled q).2
    -- a significand of fifty-four bits carries into the exponent, which is what it should do
    let magnitude := (q + 1074).toNat * Nat.pow 2 52 + m
    if magnitude < 2047 * Nat.pow 2 52 then withSign negative magnitude else infinity negative

/-- The product. -/
def mul (x y : Binary64) : Binary64 :=
  match x.value, y.value with
  | .nan, _ | _, .nan => nan
  | .infinite s, .infinite t => infinity (s != t)
  | .infinite s, .finite t m _ | .finite t m _, .infinite s =>
    if m = 0 then nan else infinity (s != t)
  | .finite s m q, .finite t n r =>
    let (num, den) := ratio (m * n) (q + r)
    nearest (s != t) num den

/-- One divided by a number. -/
def inverse (x : Binary64) : Binary64 :=
  match x.value with
  | .nan => nan
  | .infinite s => zero s
  | .finite s m q =>
    if m = 0 then infinity s
    else
      let (num, den) := ratio m q
      nearest s den num

/-- `acc * base ^ n` by repeated squaring, rounding after every product; `n` has at most as many
binary digits as there are `rounds`. -/
def powerLoop : (rounds n : Nat) → (base acc : Binary64) → Binary64
  | 0, _, _, acc => acc
  | rounds + 1, n, base, acc =>
    let acc := if n % 2 = 1 then acc.mul base else acc
    if n / 2 = 0 then acc else powerLoop rounds (n / 2) (base.mul base) acc

/-- The power of ten that repeated squaring yields.  Every step rounds, so that far powers are not
always the nearest numbers to the exact ones. -/
def powerOfTen (e : Int) : Binary64 :=
  let magnitude := powerLoop (e.natAbs.log2 + 1) e.natAbs ten one
  if e < 0 then magnitude.inverse else magnitude

/-- The whole number that a value is, if it is one of 32 bits. -/
def toInt32? (x : Binary64) : Option Int32 :=
  match x.value with
  | .finite negative m q =>
    let (num, den) := ratio m q
    let n : Int := if negative then -((num / den : Nat) : Int) else (num / den : Nat)
    if num % den = 0 ∧ Int32.minValue.toInt ≤ n ∧ n ≤ Int32.maxValue.toInt then
      some (Int32.ofInt n)
    else none
  | _ => none

end Binary64

end MathTree.Number

import MathTree.Number.Decimal
import MathTree.Number.Shortest

/-!
# Texts of numbers

`realText` is how formulas write a real number: a whole number of 32 bits without a point, a number
between a ten-thousandth and ten thousand as a plain decimal, and any other in scientific form.
-/

namespace MathTree.Number

/-- A whole number with a sign if it is negative. -/
def intText (n : Int) : String :=
  if n < 0 then "-" ++ toString n.natAbs else toString n.natAbs

def minusIf (negative : Bool) : String := if negative then "-" else ""

namespace Binary64

/-- The shortest digits in scientific form, such as `1.5E-5`. -/
def scientificText (x : Binary64) : String :=
  match x.value with
  | .nan => "NaN"
  | .infinite negative => minusIf negative ++ "inf"
  | .finite negative m q =>
    minusIf negative ++ if m = 0 then "0E0" else (shortest m q).scientific "E"

/-- The shortest digits without an exponent. -/
def positionalText (x : Binary64) : String :=
  match x.value with
  | .nan => "NaN"
  | .infinite negative => minusIf negative ++ "inf"
  | .finite negative m q =>
    minusIf negative ++ if m = 0 then "0" else (shortest m q).positional

/-- A plain decimal without trailing zeros.  Numbers that are not a `Decimal` are written with their
shortest digits. -/
def decimalText (x : Binary64) : String :=
  match Decimal.ofBinary64? x with
  | some d => d.normalize.toText
  | none => x.positionalText

/-- Whether a plain decimal is too long a text for a number: below a ten-thousandth or above ten
thousand in magnitude. -/
def isFar (m : Nat) (q : Int) : Bool :=
  let (num, den) := ratio m q
  num * Nat.pow 10 4 < den || den * Nat.pow 10 4 < num

/-- A real number as formulas write it. -/
def realText (x : Binary64) : String :=
  match x.value with
  | .nan => "NaN"
  | .infinite negative => minusIf negative ++ "INF"
  | .finite _ m q =>
    match x.toInt32? with
    | some n => intText n.toInt
    | none => if isFar m q then x.scientificText else x.decimalText

/-- A number as listings of nodes write it: always with a point or an exponent, and in scientific
form from `10 ^ 16` on and below a ten-thousandth. -/
def listingText (x : Binary64) : String :=
  match x.value with
  | .nan => "NaN"
  | .infinite negative => minusIf negative ++ "inf"
  | .finite negative m q =>
    let (num, den) := ratio m q
    minusIf negative ++
      if m = 0 then "0.0"
      else if num * Nat.pow 10 4 < den || den * Nat.pow 10 16 ≤ num then (shortest m q).scientific "e"
      else
        let d := shortest m q
        if 0 ≤ d.exponent then d.positional ++ ".0" else d.positional

end Binary64

/-- Mantissa and exponent of a text in scientific form: what stands before and behind its first
`E`. -/
def splitScientific? (text : String) : Option (String × String) :=
  match text.toList.span (· != 'E') with
  | (mantissa, _ :: exponent) => some (String.ofList mantissa, String.ofList exponent)
  | (_, []) => none

end MathTree.Number

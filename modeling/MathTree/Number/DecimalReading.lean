import MathTree.Number.Decimal

/-!
# Reading decimals

`Decimal.ofText?` reads a decimal: an optional sign, digits with at most one point among them, at
least one digit, and behind it possibly a mark `e` or `E` with a power of ten of at most twenty-eight
places.  Once a digit has been seen, underscores are skipped.  Digits are kept while a `Decimal` has
room for them.  Behind the point the first digit without room rounds the number, a five going up,
and the digits after it are dropped; before the point there is no number without that room.
-/

namespace MathTree.Number

namespace Decimal

/-- What has been read so far: the number without its point, how many of its digits stand behind the
point, and whether there has been a digit and a point. -/
structure Scan where
  mantissa : Nat := 0
  scale : Nat := 0
  hasDigit : Bool := false
  hasPoint : Bool := false

namespace Scan

/-- Whether there is no room for another decimal. -/
def isFull (s : Scan) : Bool := maxScale ≤ s.scale

/-- Whether the mantissa fits a word of 64 bits. -/
def isShort (s : Scan) : Bool := s.mantissa < Nat.pow 2 64

/-- One more digit. -/
def push (s : Scan) (digit : Nat) : Scan :=
  { s with
    mantissa := 10 * s.mantissa + digit
    scale := if s.hasPoint then s.scale + 1 else 0
    hasDigit := true }

/-- The number, rounded by the first digit that is dropped, if nothing but digits and underscores
stands behind that. -/
def close? (s : Scan) (negative : Bool) (dropped : Nat) (rest : List Char) : Option Decimal :=
  if rest.all fun c => c.isDigit || c == '_' then
    fit? negative (s.mantissa + if 5 ≤ dropped then 1 else 0) (Nat.pow 10 s.scale) s.scale
  else none

end Scan

def digitValue (c : Char) : Nat := c.toNat - '0'.toNat

/-- The number that some characters go on to, behind what has been read.  An underscore in the place
of the first digit that is dropped stands for a zero behind a short mantissa, and is skipped behind
a longer one. -/
def readFrom? (negative : Bool) : Scan → List Char → Option Decimal
  | s, [] => if s.hasDigit then some ⟨negative, s.mantissa, s.scale⟩ else none
  | s, c :: rest =>
    if c.isDigit then
      let next := s.push (digitValue c)
      if s.isFull || bound ≤ next.mantissa then
        if s.hasPoint then s.close? negative (digitValue c) rest else none
      else readFrom? negative next rest
    else if c = '.' then
      if s.hasPoint then none else readFrom? negative { s with hasPoint := true } rest
    else if c = '_' && s.hasDigit then
      if s.isFull && s.isShort then s.close? negative 0 rest else readFrom? negative s rest
    else none

/-- A sign and what stands behind it. -/
def takeSign : List Char → Bool × List Char
  | '-' :: rest => (true, rest)
  | '+' :: rest => (false, rest)
  | text => (false, text)

/-- A decimal without an exponent. -/
def ofPlain? (text : List Char) : Option Decimal :=
  let (negative, body) := takeSign text
  readFrom? negative {} body

/-- The power of ten behind a mark, if it is at most the largest scale: whether it is negative, and
how many places it moves the point.  Between a minus and the digits there may be a plus. -/
def exponent? (text : List Char) : Option (Bool × Nat) :=
  let (negative, body) := match text with
    | '-' :: rest => (true, rest)
    | _ => (false, text)
  let digits := match body with
    | '+' :: rest => rest
    | _ => body
  if digits.isEmpty || !digits.all Char.isDigit then none
  else
    let places := digits.foldl (fun n c => 10 * n + digitValue c) 0
    if places ≤ maxScale then some (negative, places) else none

/-- The number with at most the largest scale, rounded by the first decimal that is dropped. -/
def roundToMaxScale (d : Decimal) : Decimal :=
  if d.scale ≤ maxScale then d
  else
    let kept := d.mantissa / Nat.pow 10 (d.scale - maxScale)
    let dropped := d.mantissa / Nat.pow 10 (d.scale - maxScale - 1) % 10
    ⟨d.negative, kept + if 5 ≤ dropped then 1 else 0, maxScale⟩

/-- The number times ten to the power of `places`, or divided by it, unless it is too large. -/
def shift? (d : Decimal) (divide : Bool) (places : Nat) : Option Decimal :=
  if divide then some (roundToMaxScale { d with scale := d.scale + places })
  else if places ≤ d.scale then some { d with scale := d.scale - places }
  else
    let m := d.mantissa * Nat.pow 10 (places - d.scale)
    if m < bound then some ⟨d.negative, m, 0⟩ else none

/-- The decimal that a text is, with or without an exponent. -/
def ofText? (text : String) : Option Decimal :=
  match text.toList.span fun c => c != 'e' && c != 'E' with
  | (plain, []) => ofPlain? plain
  | (mantissa, _ :: exponent) => do
    let d ← ofPlain? mantissa
    let (divide, places) ← exponent? exponent
    d.shift? divide places

end Decimal

end MathTree.Number

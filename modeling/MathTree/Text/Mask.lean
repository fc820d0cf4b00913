import MathTree.Text.Blank

/-!
# Masked texts

`mask` writes the characters that LaTeX gives a meaning so that they stand for themselves.  The signs
for less and greater become formulas of their own and the other special characters are escaped by a
backslash.  With `hyphenate` an escape behind the first character also allows a line to break before
it, unless a backslash stands before the character, which then is not escaped again.
-/

namespace MathTree.Text

/-- Whether a backslash is put before a character. -/
def isSpecial (c : Char) : Bool :=
  ['_', '\\', '$', '&', '#', '{', '}', '~', '%', '^'].contains c

/-- One character, behind the character `previous` of the same text if it is not the first. -/
def maskChar (hyphenate : Bool) (previous : Option Char) (c : Char) : List Char :=
  if c = '<' then ['$', '<', '$']
  else if c = '>' then ['$', '>', '$']
  else if isSpecial c then
    if previous.isNone || !hyphenate then ['\\', c]
    else if previous = some '\\' then [c]
    else ['\\', '-', '\\', c]
  else [c]

/-- The characters behind `previous`. -/
def maskFrom (hyphenate : Bool) : (previous : Option Char) → List Char → List Char
  | _, [] => []
  | previous, c :: rest => maskChar hyphenate previous c ++ maskFrom hyphenate (some c) rest

/-- A text whose characters stand for themselves in LaTeX, without blanks at its ends. -/
def mask (hyphenate : Bool) (text : String) : String :=
  String.ofList (trim (maskFrom hyphenate none text.toList))

end MathTree.Text

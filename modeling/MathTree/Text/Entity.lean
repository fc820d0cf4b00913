/-!
# Predefined entities

`escape` writes the five characters that markup gives a meaning as entities, so that a text can stand
in an element or between double quotes.
-/

namespace MathTree.Text

/-- The entity for a character that markup gives a meaning, or else the character. -/
def entity (c : Char) : List Char :=
  match c with
  | '&' => ['&', 'a', 'm', 'p', ';']
  | '<' => ['&', 'l', 't', ';']
  | '>' => ['&', 'g', 't', ';']
  | '"' => ['&', 'q', 'u', 'o', 't', ';']
  | '\'' => ['&', 'a', 'p', 'o', 's', ';']
  | c => [c]

/-- A text with entities for the characters that markup gives a meaning. -/
def escape (text : String) : String := String.ofList (text.toList.flatMap entity)

end MathTree.Text

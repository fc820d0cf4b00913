import MathTree.Number.RealText
import MathTree.Text.Quoted
import MathTree.Tree

/-!
# Listings

A tree on one line with all that it holds, also what a strict node does not show, for whoever looks
for a mistake in it.  Every value is written as a record with named parts, as a named tuple or as a
bare name.
-/

namespace MathTree

open MathTree.Number

namespace Listing

/-- A record with named parts. -/
def record (name : String) (parts : List (String × String)) : String :=
  name ++ " \x7b " ++ ", ".intercalate (parts.map fun (part, value) => part ++ ": " ++ value)
    ++ " \x7d"

/-- A name applied to a value. -/
def tagged (name value : String) : String := name ++ "(" ++ value ++ ")"

def list (values : List String) : String := "[" ++ ", ".intercalate values ++ "]"

/-- A value that may be missing. -/
def optional {α : Type} (write : α → String) : Option α → String
  | some value => tagged "Some" (write value)
  | none => "None"

def bool (b : Bool) : String := if b then "true" else "false"

def integer? (n : Option Int32) : String := optional (fun n => intText n.toInt) n

def text? (text : Option String) : String := optional Text.quoted text

def symbol (s : Symbol) : String :=
  record "Symbol"
    [("name", text? s.name), ("definition_url", text? s.definitionUrl), ("encoding", text? s.encoding)]

def payload : Payload → String
  | .integer value units => record "Integer" [("value", integer? value), ("units", text? units)]
  | .real value units => record "Real" [("value", value.listingText), ("units", text? units)]
  | .rational numerator denominator units =>
    record "Rational" [("numerator", integer? numerator), ("denominator", integer? denominator),
      ("units", text? units)]
  | .exponential mantissa exponent units =>
    record "Exponential" [("mantissa", mantissa.listingText), ("exponent", integer? exponent),
      ("units", text? units)]
  | .identifier s => tagged "Ci" (symbol s)
  | .csymbol s => tagged "CSymbol" (symbol s)
  | .binary s => tagged "Binary" (symbol s)
  | .call s => tagged "FunctionCall" (symbol s)
  | .lambda bound => record "Lambda" [("bvar_count", toString bound)]
  | .piecewise cases fallback =>
    record "Piecewise" [("piece_count", toString cases), ("has_otherwise", bool fallback)]
  | bare => bare.form.label

/-- One node, with the listings of its children. -/
def node (h : Head) (children : List String) : String :=
  record "AstNode" <|
    [("type", h.kind.label), ("kind", payload h.payload)]
      ++ (if h.strict then [] else [("strict", bool false)])
      ++ (if children.isEmpty then [] else [("children", list children)])

end Listing

/-- The listing of a tree. -/
def Tree.listing : Tree → String := Rose.fold Listing.node

end MathTree

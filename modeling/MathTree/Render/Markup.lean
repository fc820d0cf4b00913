import MathTree.Fault
import MathTree.Text.Entity

/-!
# Markup

A `Sheet` is markup in the course of being written: the lines so far, how many elements are open, and
the attributes that wait for the next element.  A line is a `Mark` at the depth at which it was
written, and only `Line.text` knows of indentation.  A `Scribe` writes on a sheet and may fail, and
what it wrote before it failed stays.
-/

namespace MathTree.Markup

/-- The name and the value of an attribute. -/
structure Attribute where
  name : String
  value : String
  deriving DecidableEq, Repr

def Attribute.text (a : Attribute) : String := " " ++ a.name ++ "=\"" ++ Text.escape a.value ++ "\""

/-- A piece of markup that is never broken. -/
inductive Mark where
  | start (tag : String) (attributes : List Attribute)
  | finish (tag : String)
  | empty (tag : String) (attributes : List Attribute)
  /-- An element with a text in it. -/
  | element (tag : String) (attributes : List Attribute) (text : String)
  /-- A number, of one part or of two. -/
  | number (attributes : List Attribute) (parts : List String)
  deriving DecidableEq, Repr

namespace Mark

/-- A tag with its attributes. -/
def opening (tag : String) (attributes : List Attribute) : String :=
  tag ++ String.join (attributes.map Attribute.text)

def text : Mark → String
  | .start tag attributes => "<" ++ opening tag attributes ++ ">"
  | .finish tag => "</" ++ tag ++ ">"
  | .empty tag attributes => "<" ++ opening tag attributes ++ "/>"
  | .element tag attributes text =>
    "<" ++ opening tag attributes ++ ">" ++ Text.escape text ++ "</" ++ tag ++ ">"
  | .number attributes parts =>
    "<" ++ opening "cn" attributes ++ "> " ++ " <sep/> ".intercalate parts ++ " </cn>"

end Mark

/-- A mark and how many elements are open around it. -/
structure Line where
  depth : Nat
  mark : Mark
  deriving DecidableEq, Repr

/-- A line as text.  With an indentation it stands on a line of its own, moved in by so many spaces
for each open element; without one the marks follow each other. -/
def Line.text (indent : Nat) (line : Line) : String :=
  if indent = 0 then line.mark.text
  else String.ofList (List.replicate (line.depth * indent) ' ') ++ line.mark.text ++ "\n"

/-- The text of some lines. -/
def linesText (indent : Nat) (lines : List Line) : String :=
  String.join (lines.map (Line.text indent))

/-- Markup in the course of being written. -/
structure Sheet where
  lines : Array Line := #[]
  depth : Nat := 0
  pending : List Attribute := []
  deriving Repr

/-- A sheet with nothing on it. -/
def Sheet.blank : Sheet := {}

/-- What is written on a sheet. -/
def Sheet.text (indent : Nat) (sheet : Sheet) : String := linesText indent sheet.lines.toList

/-- What writes on a sheet. -/
abbrev Scribe := ExceptT Fault (StateM Sheet)

/-- Writes a mark at the current depth. -/
def write (mark : Mark) : Scribe Unit :=
  modify fun sheet => { sheet with lines := sheet.lines.push ⟨sheet.depth, mark⟩ }

/-- Changes which attributes wait for the next element. -/
def setPending (attributes : List Attribute) : Scribe Unit :=
  modify fun sheet => { sheet with pending := attributes }

/-- Takes the waiting attributes. -/
def takePending : Scribe (List Attribute) := do
  let sheet ← get
  setPending []
  return sheet.pending

def deepen : Scribe Unit := modify fun sheet => { sheet with depth := sheet.depth + 1 }

/-- Opens an element with the waiting attributes and others behind them. -/
def openElement (tag : String) (others : List Attribute) : Scribe Unit := do
  let attributes ← takePending
  write (.start tag (attributes ++ others))
  deepen

/-- Opens an element that takes no attributes. -/
def openBare (tag : String) : Scribe Unit := do
  write (.start tag [])
  deepen

def closeElement (tag : String) : Scribe Unit := do
  modify fun sheet => { sheet with depth := sheet.depth - 1 }
  write (.finish tag)

/-- Writes an empty element with the waiting attributes. -/
def emptyElement (tag : String) : Scribe Unit := do
  let attributes ← takePending
  write (.empty tag attributes)

/-- Writes an element around a text. -/
def textElement (tag : String) (others : List Attribute) (text : String) : Scribe Unit := do
  let attributes ← takePending
  write (.element tag (attributes ++ others) text)

/-- Writes a number. -/
def numberElement (others : List Attribute) (parts : List String) : Scribe Unit := do
  let attributes ← takePending
  write (.number (attributes ++ others) parts)

end MathTree.Markup

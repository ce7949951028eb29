import Stencil.Json.Basic

/-!
# Positions in a text

A location counts three things from zero: bytes of UTF-8 from the start of the
text, rows, and characters from the start of the row. Passing a character moves
all three: a newline ends its row, and any other character, a carriage return
included, takes a column. People are shown lines and columns that start at one.
-/

namespace Stencil

/-- A place between two characters of a text. -/
structure Location where
  offset : Nat
  row : Nat
  column : Nat
  deriving DecidableEq, Repr, Inhabited, Ord

namespace Location

/-- The beginning of a text. -/
def start : Location := ⟨0, 0, 0⟩

/-- The location on the other side of `c`. -/
def advance (l : Location) (c : Char) : Location :=
  if c = '\n' then ⟨l.offset + c.utf8Size, l.row + 1, 0⟩
  else ⟨l.offset + c.utf8Size, l.row, l.column + 1⟩

/-- The location on the other side of a text. -/
def advanceOver (l : Location) (text : List Char) : Location := text.foldl advance l

theorem offset_advance (l : Location) (c : Char) :
    (l.advance c).offset = l.offset + c.utf8Size := by
  rw [advance]
  split <;> rfl

theorem advanceOver_append (l : Location) (first second : List Char) :
    l.advanceOver (first ++ second) = (l.advanceOver first).advanceOver second :=
  List.foldl_append

/-- The line number shown to people. -/
def line (l : Location) : Nat := l.row + 1

/-- The column number shown to people. -/
def displayColumn (l : Location) : Nat := l.column + 1

def toJson (l : Location) : Json :=
  .object [("offset", .ofNat l.offset), ("row", .ofNat l.row), ("column", .ofNat l.column)]

end Location

/-- A stretch of text, from one location up to another. -/
structure Range where
  first : Location
  last : Location
  deriving DecidableEq, Repr, Inhabited

namespace Range

/-- The stretch without any text at a location. -/
def empty (l : Location) : Range := ⟨l, l⟩

/-- The length in bytes; a stretch that ends before it starts has none. -/
def length (r : Range) : Nat := r.last.offset - r.first.offset

def isEmpty (r : Range) : Bool := r.length == 0

def toJson (r : Range) : Json :=
  .object [("start", r.first.toJson), ("end", r.last.toJson)]

end Range

end Stencil

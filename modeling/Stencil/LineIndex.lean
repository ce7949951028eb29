import Stencil.Position

/-!
# Line indexes

A line index holds the offsets of a text's newlines, and with the text at hand it
turns a byte offset into a location: the row is the number of newlines before the
offset, and the column is the number of characters between the last of them and
the offset. An offset past the end or inside a character has no location. An
offset on a newline belongs to the row the newline ends.

The registry keeps texts with their indexes in the order in which they were added.
-/

namespace Stencil

/-- The newlines of a text. -/
structure LineIndex where
  /-- The byte offsets of the newlines, in order. -/
  breaks : List Nat
  /-- The length of the text in bytes. -/
  length : Nat
  deriving DecidableEq, Repr, Inhabited

namespace LineIndex

/-- The offsets of the newlines of a text that starts at `offset`. -/
def breaksFrom (offset : Nat) : List Char → List Nat
  | [] => []
  | c :: rest =>
      let tail := breaksFrom (offset + c.utf8Size) rest
      if c = '\n' then offset :: tail else tail

def ofText (text : String) : LineIndex := ⟨breaksFrom 0 text.toList, text.utf8ByteSize⟩

/-- What is left of a text after its first `count` bytes; none if that would split a character. -/
def dropBytes? : (count : Nat) → List Char → Option (List Char)
  | 0, text => some text
  | _ + 1, [] => none
  | count + 1, c :: rest =>
      if c.utf8Size ≤ count + 1 then dropBytes? (count + 1 - c.utf8Size) rest else none

/-- The first `count` bytes of a text, as characters; none if that would split a character. -/
def takeBytes? : (count : Nat) → List Char → Option (List Char)
  | 0, _ => some []
  | _ + 1, [] => none
  | count + 1, c :: rest =>
      if c.utf8Size ≤ count + 1 then
        (takeBytes? (count + 1 - c.utf8Size) rest).map (c :: ·)
      else none

/-- The location of a byte offset of the text that the index was made from. -/
def location? (index : LineIndex) (offset : Nat) (text : String) : Option Location :=
  if index.length < offset then none
  else
    let row := index.breaks.countP (· < offset)
    let lineStart :=
      match row with
      | 0 => 0
      | previous + 1 => index.breaks.getD previous 0 + 1
    do
      let line ← dropBytes? lineStart text.toList
      let before ← takeBytes? (offset - lineStart) line
      return ⟨offset, row, before.length⟩

def lineCount (index : LineIndex) : Nat := index.breaks.length + 1

def toJson (index : LineIndex) : Json :=
  .object [("line_breaks", .array (index.breaks.map .ofNat)),
    ("total_length", .ofNat index.length)]

end LineIndex

/-- A text that was registered, with its line index. -/
structure Source where
  path : String
  content : String
  index : LineIndex
  deriving DecidableEq, Repr, Inhabited

/-- Texts in the order in which they were registered; the position is a text's number. -/
structure Registry where
  sources : List Source
  deriving DecidableEq, Repr, Inhabited

namespace Registry

def empty : Registry := ⟨[]⟩

/-- Registers a text and gives its number; a path registered twice has two numbers. -/
def add (r : Registry) (path content : String) : Nat × Registry :=
  (r.sources.length, ⟨r.sources ++ [⟨path, content, .ofText content⟩]⟩)

def source? (r : Registry) (number : Nat) : Option Source := r.sources[number]?

def size (r : Registry) : Nat := r.sources.length

def isEmpty (r : Registry) : Bool := r.sources.isEmpty

/-- The location of a byte offset of a registered text. -/
def location? (r : Registry) (number offset : Nat) : Option Location := do
  let source ← r.source? number
  source.index.location? offset source.content

def toJson (r : Registry) : Json :=
  .object [("files", .array (r.sources.map fun source =>
    .object [("path", .string source.path), ("content", .string source.content),
      ("file_info", source.index.toJson)]))]

end Registry

end Stencil

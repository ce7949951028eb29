import Stencil.SourceMap

/-!
# Source maps as JSON

The serialized form is the array of the entries in order, each an object of five
members. Reading takes the same array; an entry may also be the array of its five
values, members that are not known are passed over, and a pointer that comes again
replaces what was read for it before.

A value has each member once. A text may write a member of an entry twice, and there
the program answers that the field is a duplicate; here the text is read as a value
first, where the later member has replaced the earlier.
-/

namespace Stencil.SourceMap

/-- An entry as an object. -/
def entryToJson (entry : Pointer × Origin) : Json :=
  .object [("pointer", .string entry.1.text), ("sourceFile", .string entry.2.file),
    ("line", .ofNat entry.2.line), ("column", .ofNat entry.2.column),
    ("tokenKind", .string entry.2.kind.name)]

def toJson (map : SourceMap) : Json := .array (map.entries.map entryToJson)

/-- A kind is its name, or an object whose one member is its name with null. -/
def kindOfJson? : Json → Option TokenKind
  | .string name => TokenKind.ofName? name
  | .object [(name, .null)] => TokenKind.ofName? name
  | _ => none

/-- The entry made of five values. -/
def entryOfValues? (pointer file line column kind : Json) : Option (Pointer × Origin) := do
  let p ← (Pointer.parse? (← pointer.string?)).toOption
  return (p, ⟨← file.string?, ← line.nat?, ← column.nat?, ← kindOfJson? kind⟩)

def entryOfJson? : Json → Option (Pointer × Origin)
  | .array [pointer, file, line, column, kind] => entryOfValues? pointer file line column kind
  | .object members => do
      let value : Json := .object members
      entryOfValues? (← value.member? "pointer") (← value.member? "sourceFile")
        (← value.member? "line") (← value.member? "column") (← value.member? "tokenKind")
  | _ => none

/-- The map that a value says. From the text of a value the program reads the same, except that
it refuses an entry in which a member that it knows is written twice. -/
def ofJson? (value : Json) : Option SourceMap := do
  let items ← value.items?
  return ofList (← items.mapM entryOfJson?)

end Stencil.SourceMap

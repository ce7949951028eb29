import Stencil.Draft
import Stencil.Json.Printer
import Stencil.Placeholder
import Stencil.Run

/-!
# Assembly

A draft becomes a value when its directives get theirs. A link stands for the
value of the file it leads to. A variable stands for a link's value if it is
called like one of the links of its template, wherever that link is, and else for
a given or an empty value. In a string the value is written as text; in an object
the members of an object value become members.

Assembly goes through the draft in the order of the text. A link is followed when
it is first needed, once for each template, and links that nothing needs are
followed at the end.

Next to the value come the entries of its source map. The entry of a node follows
the entries of what is inside it. Where a link's value is put, its own map is moved
to the place first, so that the entry for the place itself is this template's.
-/

namespace Stencil

/-- What becomes of a template. -/
structure Assembled where
  value : Json
  map : SourceMap
  deriving Inhabited

/-- The value and the map of what is not there. -/
def Assembled.nothing : Assembled := ⟨.null, .empty⟩

/-- What the directives of a template depend on. -/
structure Scope where
  path : Path
  /-- The links of the template by the names that variables use for them. -/
  names : List (String × (Directive × Link))
  /-- The values that are given for variables. -/
  given : List (String × Json)
  /-- Follows a link. -/
  follow : Directive → Link → Run Assembled

/-- Assembly of one template; what its links gave is kept by their numbers. -/
abbrev Work := StateT (List (Nat × Assembled)) Run

abbrev Entry := Pointer × Origin

namespace Scope

/-- Follows a link, unless that has been done. -/
def settle (s : Scope) (d : Directive) (link : Link) : Work Assembled := do
  match Assoc.find? d.number (← get) with
  | some assembled => return assembled
  | none =>
      let assembled ← s.follow d link
      modify (Assoc.insert d.number assembled)
      return assembled

/-- What a directive stands for; a value of a link comes with its map. -/
def resolve (s : Scope) (d : Directive) : Work (Json × Option SourceMap) := do
  match d.meaning with
  | .link link =>
      let assembled ← s.settle d link
      return (assembled.value, some assembled.map)
  | .variable expression =>
      match Assoc.find? (Placeholder.identifier expression) s.names with
      | some (d, link) =>
          let assembled ← s.settle d link
          return (assembled.value, some assembled.map)
      | none => return (Placeholder.valueOf expression s.given, none)

/-- The origin of what stands at a location of the template. -/
def origin (s : Scope) (l : Location) (kind : TokenKind) : Origin :=
  .ofLocation s.path.text l kind

end Scope

/-- A value as text inside a string. -/
def Json.inlineText : Json → List Char
  | .string text => text.toList
  | .null => []
  | value => value.compactText

/-- The text of the pieces of a string. -/
def Piece.assemble (s : Scope) : List Piece → Work (List Char)
  | [] => return []
  | .char c :: rest => do
      let tail ← assemble s rest
      return c :: tail
  | .variable d :: rest => do
      let (value, _) ← s.resolve d
      let tail ← assemble s rest
      return value.inlineText ++ tail

/-- The entries of a map, moved to the place where its document is put. -/
def movedEntries (p : Pointer) : Option SourceMap → List Entry
  | none => []
  | some map => map.moved p

mutual

/-- The value of a node at `p`, and the entries of what is inside it. -/
def Node.assemble (s : Scope) (p : Pointer) : Node → Work (Json × List Entry)
  | .scalar value => return (value, [])
  | .text pieces => do
      let text ← Piece.assemble s pieces
      return (.string (String.ofList text), [])
  | .directive d => do
      let (value, map) ← s.resolve d
      return (value, movedEntries p map)
  | .array elements => do
      let (items, entries) ← elements.assemble s p
      return (.array items, entries)
  | .object members => do
      let (list, entries) ← members.assemble s p
      return (.object list, entries)
  | .broken pieces => do
      let _ ← Piece.assemble s pieces
      return (.null, [])

/-- The items of an array at `p`, and all entries inside it. -/
def Elements.assemble (s : Scope) (p : Pointer) : Elements → Work (List Json × List Entry)
  | .none => return ([], [])
  | .add earlier place node => do
      let (items, entries) ← earlier.assemble s p
      let child := p.index items.length
      let (value, inner) ← node.assemble s child
      if node.isBroken then return (items, entries)
      else
        return (items ++ [value], entries ++ inner ++ [(child, s.origin place node.kind)])

/-- The members of an object at `p`, and all entries inside it. -/
def Members.assemble (s : Scope) (p : Pointer) :
    Members → Work (List (String × Json) × List Entry)
  | .none => return ([], [])
  | .add earlier place key node => do
      let (list, entries) ← earlier.assemble s p
      let text ← Piece.assemble s key
      let name := String.ofList text
      let child := p.key name
      let (value, inner) ← node.assemble s child
      if node.isBroken then return (list, entries)
      else
        return (Assoc.insert name value list,
          entries ++ inner ++ [(child, s.origin place .literal)])
  | .spread earlier d => do
      let (list, entries) ← earlier.assemble s p
      let (value, map) ← s.resolve d
      match value, map with
      | .object members, some map =>
          return (members.foldl (fun list m => Assoc.insert m.1 m.2 list) list,
            entries ++ map.moved p)
      | .object members, none =>
          return (members.foldl (fun list m => Assoc.insert m.1 m.2 list) list,
            entries ++ members.map fun m => (p.key m.1, s.origin d.range.first d.kind))
      | .null, some _ => return (list, entries)
      | value, _ =>
          Run.report (.ofLocation (.notSpreadable value.describe d.raw) s.path d.range.first)
          return (list, entries)

end

/-- The value of a template and the entries of its map. -/
def Draft.assemble (s : Scope) (links : List Directive) (draft : Draft) :
    Work (Json × List Entry) := do
  for d in draft.leading do
    let _ ← s.resolve d
  let result ←
    match draft.body with
    | none => pure (.null, [])
    | some (place, node) => do
        let (value, entries) ← node.assemble s .root
        pure (value, entries ++ [(Pointer.root, s.origin place node.kind)])
  for d in draft.trailing do
    let _ ← s.resolve d
  match draft.fault with
  | none => pure ()
  | some fault => Run.report (.ofLocation (.fault fault.fault) s.path fault.place)
  for d in links do
    let _ ← s.resolve d
  return result

end Stencil

import Stencil.Pointer
import Stencil.Position

/-!
# Source maps

A source map says for nodes of an extracted document which template text they
came from. It is a table from pointers to origins in the order of first writing;
writing a pointer again replaces its origin where it stands. A node without an
entry of its own is looked up at the nearest ancestor that has one. When a
document is spliced into another, its map moves with it: every pointer gets a new
beginning, and the origins stay as they are.
-/

namespace Stencil

/-- The kinds of template text. -/
inductive TokenKind where
  | literal
  | variable
  | importDirective
  | controlBlock
  deriving DecidableEq, Repr, Inhabited

namespace TokenKind

def name : TokenKind → String
  | .literal => "literal"
  | .variable => "variable"
  | .importDirective => "importDirective"
  | .controlBlock => "controlBlock"

def all : List TokenKind := [.literal, .variable, .importDirective, .controlBlock]

def ofName? (name : String) : Option TokenKind := all.find? fun kind => kind.name = name

end TokenKind

/-- Where a node came from: a file, a line and a column that start at one, and what stood
there. -/
structure Origin where
  file : String
  line : Nat
  column : Nat
  kind : TokenKind
  deriving DecidableEq, Repr, Inhabited

namespace Origin

def ofLocation (file : String) (l : Location) (kind : TokenKind) : Origin :=
  ⟨file, l.line, l.displayColumn, kind⟩

/-- The place as people write it, `file:line:column`. -/
def place (o : Origin) : String := s!"{o.file}:{o.line}:{o.column}"

end Origin

/-- Origins by pointer, in the order in which the pointers were first written. -/
structure SourceMap where
  entries : List (Pointer × Origin)
  nodup : (Assoc.keys entries).Nodup

namespace SourceMap

def empty : SourceMap := ⟨[], List.nodup_nil⟩

instance : Inhabited SourceMap := ⟨empty⟩

/-- Writes one entry. -/
def insert (map : SourceMap) (p : Pointer) (o : Origin) : SourceMap :=
  ⟨Assoc.insert p o map.entries, Assoc.nodup_keys_insert p o map.nodup⟩

/-- Writes entries in order. -/
def insertAll (map : SourceMap) (entries : List (Pointer × Origin)) : SourceMap :=
  entries.foldl (fun map entry => map.insert entry.1 entry.2) map

/-- The map that results from writing entries in order. -/
def ofList (entries : List (Pointer × Origin)) : SourceMap := empty.insertAll entries

/-- The origin written for exactly this pointer. -/
def get? (map : SourceMap) (p : Pointer) : Option Origin := Assoc.find? p map.entries

/-- The entry of the pointer itself or of its nearest ancestor that has one. -/
def lookup? (map : SourceMap) (p : Pointer) : Option (Pointer × Origin) :=
  p.ancestors.findSome? fun q => (map.get? q).map fun o => (q, o)

/-- The entries as they stand once the document hangs under `p`. -/
def moved (map : SourceMap) (p : Pointer) : List (Pointer × Origin) :=
  map.entries.map fun entry => (p.join entry.1, entry.2)

/-- Writes the entries of `other`, moved under `p`. -/
def extend (map : SourceMap) (p : Pointer) (other : SourceMap) : SourceMap :=
  map.insertAll (other.moved p)

def size (map : SourceMap) : Nat := map.entries.length

def isEmpty (map : SourceMap) : Bool := map.entries.isEmpty

/-- Whether two maps hold the same entries, whatever their order. -/
def sameEntries (map other : SourceMap) : Bool :=
  map.size == other.size &&
    map.entries.all fun entry => other.get? entry.1 == some entry.2

end SourceMap

end Stencil

import Stencil.Assoc
import Stencil.Loader

/-!
# Shelves

A shelf holds texts under paths in normal form. A path is looked up by its normal
form, so that all ways of writing it find the same text, and the normal form is
the canonical path of what is there.
-/

namespace Stencil

/-- Texts by normal path. -/
structure Shelf where
  files : List (Path × String)
  deriving DecidableEq, Repr, Inhabited

namespace Shelf

def empty : Shelf := ⟨[]⟩

/-- Puts a text on the shelf; one that is there already under the same path goes. -/
def add (s : Shelf) (path : Path) (text : String) : Shelf :=
  ⟨Assoc.insert path.normalize text s.files⟩

def ofList (files : List (Path × String)) : Shelf :=
  files.foldl (fun shelf file => shelf.add file.1 file.2) empty

def read (s : Shelf) (path : Path) : Except LoadError String :=
  match Assoc.find? path.normalize s.files with
  | some text => .ok text
  | none => .error (.missing path)

def canonicalize (s : Shelf) (path : Path) : Except LoadError Path :=
  match Assoc.find? path.normalize s.files with
  | some _ => .ok path.normalize
  | none => .error (.missing path)

def loader (s : Shelf) : Loader := ⟨s.canonicalize, s.read⟩

end Shelf

end Stencil

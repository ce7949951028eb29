import Stencil.Digest
import Stencil.Json.Basic
import Stencil.Problem

/-!
# Ledgers

While a document is extracted, what happens is written into a ledger: the imports,
the problems, the files that were asked for, and counts. A ledger is only ever
added to. The ledger of doing one thing after another is the one ledger after the
other, so whatever part of an extraction wrote a stretch of it would have written
the same stretch anywhere else.
-/

namespace Stencil

/-- One link that was followed, or that could not be. -/
structure ImportRecord where
  /-- The path as the link has it. -/
  written : String
  /-- The file's canonical path, or the path looked for where there is no file. -/
  resolved : Path
  /-- The file that holds the link. -/
  file : Path
  /-- Where the link stands in it. -/
  range : Range
  description : String
  /-- What was extracted from the file; null where nothing could be. -/
  value : Json
  /-- Whether the file was being assembled already. -/
  isRecursive : Bool
  deriving Repr, Inhabited

/-- A file that was asked for, with the digest of what was read; none if nothing was. -/
structure Dependency where
  path : Path
  digest : Option String
  deriving DecidableEq, Repr, Inhabited

namespace Dependency

/-- The dependency on a file whose text was read. -/
def ofText (path : Path) (text : String) : Dependency := ⟨path, some (Digest.ofText text)⟩

/-- The dependency on a file that could not be found or read. -/
def absent (path : Path) : Dependency := ⟨path, none⟩

end Dependency

/-- What happened, in order. -/
structure Ledger where
  imports : List ImportRecord := []
  problems : List Problem := []
  dependencies : List Dependency := []
  /-- How many variables the assembled files hold. -/
  variableCount : Nat := 0
  /-- How many control blocks the assembled files hold. -/
  controlCount : Nat := 0
  /-- How many bytes were read. -/
  byteCount : Nat := 0
  deriving Repr, Inhabited

namespace Ledger

def empty : Ledger := {}

/-- One ledger after the other. -/
def append (a b : Ledger) : Ledger where
  imports := a.imports ++ b.imports
  problems := a.problems ++ b.problems
  dependencies := a.dependencies ++ b.dependencies
  variableCount := a.variableCount + b.variableCount
  controlCount := a.controlCount + b.controlCount
  byteCount := a.byteCount + b.byteCount

instance : Append Ledger := ⟨append⟩

theorem append_def (a b : Ledger) : a ++ b = a.append b := rfl

@[simp] theorem empty_append (a : Ledger) : empty ++ a = a := by
  simp [append_def, append, empty]

@[simp] theorem append_empty (a : Ledger) : a ++ empty = a := by
  simp [append_def, append, empty]

theorem append_assoc (a b c : Ledger) : a ++ b ++ c = a ++ (b ++ c) := by
  simp [append_def, append, Nat.add_assoc]

end Ledger

end Stencil

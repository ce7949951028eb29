import Stencil.Assoc
import Stencil.Loader

/-!
# Snapshots

A snapshot holds what a file system answered when it was asked about some paths. As
a loader it repeats those answers, and a path that has not been asked about is
missing. Since an extraction names every file it missed, asking about those and
starting again ends with an extraction that missed nothing for want of asking.
-/

namespace Stencil

/-- What a file system said about a path. -/
structure Snapshot.Answer where
  canonical : Except LoadError Path
  text : Except LoadError String

/-- Answers by the path that was asked about. -/
structure Snapshot where
  answers : List (Path × Snapshot.Answer)

namespace Snapshot

def empty : Snapshot := ⟨[]⟩

def contains (s : Snapshot) (path : Path) : Bool := (Assoc.find? path s.answers).isSome

def add (s : Snapshot) (path : Path) (answer : Answer) : Snapshot :=
  ⟨Assoc.insert path answer s.answers⟩

def canonicalize (s : Snapshot) (path : Path) : Except LoadError Path :=
  match Assoc.find? path s.answers with
  | some answer => answer.canonical
  | none => .error (.missing path)

def read (s : Snapshot) (path : Path) : Except LoadError String :=
  match Assoc.find? path s.answers with
  | some answer => answer.text
  | none => .error (.missing path)

def loader (s : Snapshot) : Loader := ⟨s.canonicalize, s.read⟩

end Snapshot

end Stencil

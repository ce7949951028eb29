import Stencil.Assoc
import Stencil.Loader

/-!
# File trees

A file tree is what a file system holds: directories, files with their bytes, and
symbolic links, each under the names that lead to it from the root. Finding the
canonical path means walking: every name is looked up in the directory reached so
far, a step up leaves that directory, and a link is replaced by what it says, up to
a fixed number of times. Only a directory can be walked through.
-/

namespace Stencil

inductive Tree.Node where
  | directory
  | file (bytes : List UInt8)
  /-- A symbolic link and the path it says. -/
  | link (target : String)
  deriving DecidableEq, Repr, Inhabited

/-- What stands under the names from the root. -/
structure Tree where
  nodes : List (List (List Char) × Tree.Node)
  deriving Inhabited

namespace Tree

def empty : Tree := ⟨[]⟩

/-- How many links are replaced on one walk. -/
def maxLinks : Nat := 40

/-- The longest name, in bytes of UTF-8. -/
def maxNameBytes : Nat := 255

/-- What stands under some names; the root is a directory. -/
def node? (t : Tree) : List (List Char) → Option Node
  | [] => some .directory
  | names => Assoc.find? names t.nodes

/-- The length of a name in bytes. -/
def nameBytes (name : List Char) : Nat := (String.ofList name).utf8ByteSize

/-- Walks on by segments of a path from the place that `names` lead to; `path` is the path that
was asked for. -/
def walk (t : Tree) (path : Path) (links : Nat) (names : List (List Char)) :
    List (List Char) → Except LoadError (List (List Char))
  | [] => .ok names
  | segment :: rest =>
      if t.node? names ≠ some .directory then .error .notDirectory
      else if segment = [] ∨ segment = ['.'] then walk t path links names rest
      else if segment = ['.', '.'] then walk t path links names.dropLast rest
      else if maxNameBytes < nameBytes segment then .error .nameTooLong
      else
        match t.node? (names ++ [segment]) with
        | none => .error (.missing path)
        | some (.link target) =>
            match links with
            | 0 => .error .tooManyLinks
            | links + 1 =>
                let start := if target.startsWith "/" then [] else names
                walk t path links start (Path.segments target.toList ++ rest)
        | some _ => walk t path links (names ++ [segment]) rest
  termination_by segments => (links, segments.length)

/-- The names that a path leads to; a path that does not start at the root starts at `here`. -/
def locate (t : Tree) (here : List (List Char)) (path : Path) :
    Except LoadError (List (List Char)) :=
  let chars := path.text.toList
  if chars.isEmpty then .error (.missing path)
  else if chars.contains '\x00' then .error .zeroInName
  else t.walk path maxLinks (if chars.head? = some '/' then [] else here) (Path.segments chars)

/-- The path that names lead along from the root. -/
def pathOf (names : List (List Char)) : Path := (Route.mk true (names.map Step.name)).toPath

def canonicalize (t : Tree) (here : List (List Char)) (path : Path) : Except LoadError Path := do
  return pathOf (← t.locate here path)

/-- The text of a file. -/
def read (t : Tree) (here : List (List Char)) (path : Path) : Except LoadError String := do
  match t.node? (← t.locate here path) with
  | some (.file bytes) =>
      match String.fromUTF8? ⟨bytes.toArray⟩ with
      | some text => .ok text
      | none => .error .invalidEncoding
  | some .directory => .error .isDirectory
  | _ => .error (.missing path)

/-- The names in a path that says where something is to be put, from the root. -/
def namesOf (path : Path) : List (List Char) := path.route.normal.steps.map Step.chars

/-- The tree with a directory at a path, and the names that lead to it. Where there is nothing
yet directories are made, and links on the way are replaced by what they say. -/
def makeDirectory (t : Tree) (path : Path) (names : List (List Char)) :
    Tree × List (List Char) :=
  names.foldl (fun (t, above) name =>
    match t.walk path maxLinks above [name] with
    | .ok names => (t, names)
    | .error _ => (⟨Assoc.insert (above ++ [name]) .directory t.nodes⟩, above ++ [name]))
    (t, [])

/-- Puts something in the tree, with the directories above it. -/
def add (t : Tree) (path : Path) (node : Node) : Tree :=
  let names := namesOf path
  let (t, above) := t.makeDirectory path names.dropLast
  match names.getLast? with
  | none => t
  | some name => ⟨Assoc.insert (above ++ [name]) node t.nodes⟩

/-- The loader for a tree, seen from a directory. -/
def loader (t : Tree) (here : Path) : Loader :=
  ⟨t.canonicalize (namesOf here), t.read (namesOf here)⟩

end Tree

end Stencil

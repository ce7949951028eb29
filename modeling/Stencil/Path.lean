import Stencil.Text.Blank

/-!
# Paths

A path is kept as it was written, and read as a route: whether it starts at the
root, and its steps from there, each a name or a step up. Repeated and trailing
slashes and steps to the same place (`.`) are no steps. The normal form of a route
takes every step up together with the name before it; at the root a step up leads
nowhere, and a route that does not start at the root may begin with steps up.

Only paths of valid Unicode are modelled. The program takes others too and tells files
apart by their display texts, where replacement characters stand for what is not
Unicode, so that two files may count as one.

A file's name splits at its last dot into a stem and an extension, unless that dot
is the first character or there is none.
-/

namespace Stencil

/-- A path, as it was written. -/
structure Path where
  text : String
  deriving DecidableEq, Repr, Inhabited

/-- One step of a route. -/
inductive Step where
  | up
  | name (chars : List Char)
  deriving DecidableEq, Repr, Inhabited

/-- The way a path describes. -/
structure Route where
  rooted : Bool
  steps : List Step
  deriving DecidableEq, Repr, Inhabited

/-- The pieces of a text between slashes. -/
def Path.segments : List Char → List (List Char)
  | [] => [[]]
  | c :: rest =>
      if c = '/' then [] :: segments rest
      else
        match segments rest with
        | [] => [[c]]
        | segment :: more => (c :: segment) :: more

/-- The step a piece stands for; an empty piece and a dot stand for none. -/
def Step.ofSegment? : List Char → Option Step
  | [] => none
  | ['.'] => none
  | ['.', '.'] => some .up
  | segment => some (.name segment)

def Step.chars : Step → List Char
  | .up => ['.', '.']
  | .name chars => chars

namespace Route

def ofChars (chars : List Char) : Route :=
  ⟨chars.head? = some '/', (Path.segments chars).filterMap Step.ofSegment?⟩

/-- The steps with slashes between them. -/
def stepChars : List Step → List Char
  | [] => []
  | [step] => step.chars
  | step :: rest => step.chars ++ '/' :: stepChars rest

def toPath (r : Route) : Path :=
  ⟨String.ofList ((if r.rooted then ['/'] else []) ++ stepChars r.steps)⟩

/-- Takes one step from a place in normal form; the steps to it are in reverse. -/
def take (rooted : Bool) (place : List Step) : Step → List Step
  | .name chars => .name chars :: place
  | .up =>
      match place with
      | .name _ :: before => before
      | .up :: _ => .up :: place
      | [] => if rooted then [] else [.up]

/-- The normal form. -/
def normal (r : Route) : Route := ⟨r.rooted, (r.steps.foldl (take r.rooted) []).reverse⟩

/-- Goes on by `next` from the end of `r`. -/
def append (r : Route) (next : List Step) : Route := ⟨r.rooted, r.steps ++ next⟩

/-- The route one step short; a route without steps gives the place one stands at. -/
def directory (r : Route) : Route :=
  if r.steps.isEmpty then ⟨false, []⟩ else ⟨r.rooted, r.steps.dropLast⟩

/-- The name a route ends in. -/
def fileName? (r : Route) : Option (List Char) :=
  match r.steps.getLast? with
  | some (.name chars) => some chars
  | _ => none

/-- Puts another name in the place of the last step. -/
def withFileName (r : Route) (chars : List Char) : Route :=
  ⟨r.rooted, r.steps.dropLast ++ [.name chars]⟩

end Route

/-- What comes before and after the last dot, if there is a dot. -/
def splitLastDot? (chars : List Char) : Option (List Char × List Char) :=
  let tail := chars.reverse.takeWhile (· != '.')
  if tail.length < chars.length then
    some (chars.take (chars.length - tail.length - 1), tail.reverse)
  else none

/-- The stem and the extension of a file's name. -/
def splitName (chars : List Char) : List Char × Option (List Char) :=
  match splitLastDot? chars with
  | none => (chars, none)
  | some ([], _) => (chars, none)
  | some (stem, extension) => (stem, some extension)

namespace Path

def route (p : Path) : Route := .ofChars p.text.toList

/-- The path in normal form. -/
def normalize (p : Path) : Path := p.route.normal.toPath

/-- `next` seen from `p`; a path that starts at the root is seen alike from everywhere. -/
def join (p next : Path) : Path :=
  if next.text.startsWith "/" then next
  else if p.text.isEmpty then next
  else if p.text.endsWith "/" then ⟨p.text ++ next.text⟩
  else ⟨p.text ++ "/" ++ next.text⟩

/-- The stem of the name a path ends in. -/
def stem? (p : Path) : Option String :=
  p.route.fileName?.map fun name => String.ofList (splitName name).1

end Path

end Stencil

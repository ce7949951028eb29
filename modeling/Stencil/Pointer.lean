/-!
# JSON pointers

A pointer is the list of reference tokens on the way from the root of a document
to one of its nodes: a member's name, or an item's position in decimal. Its text
puts a slash in front of every token; inside a token `~` is written `~0` and `/`
is written `~1`, so that a slash in the text always starts a token. `parse?`
accepts exactly the texts that `text` produces.
-/

namespace Stencil

/-- The address of a node, as reference tokens from the root down. -/
structure Pointer where
  tokens : List String
  deriving DecidableEq, Repr, Inhabited

namespace Pointer

/-- Why a text is not a pointer. -/
inductive Malformed where
  /-- A pointer to anything but the root begins with a slash. -/
  | missingLeadingSlash (text : String)
  /-- A tilde is followed by 0 or 1. -/
  | invalidEscape (text : String)
  deriving DecidableEq, Repr

def Malformed.message : Malformed → String
  | .missingLeadingSlash text => s!"JSON pointer '{text}' must be empty or start with '/'"
  | .invalidEscape text => s!"JSON pointer '{text}' contains an invalid '~' escape"

/-- The written form of a token's characters. -/
def escape : List Char → List Char
  | [] => []
  | '~' :: rest => '~' :: '0' :: escape rest
  | '/' :: rest => '~' :: '1' :: escape rest
  | c :: rest => c :: escape rest

/-- The written form of a list of tokens, as characters. -/
def encode : List String → List Char
  | [] => []
  | token :: rest => '/' :: escape token.toList ++ encode rest

/-- Puts a character in front of the first of some tokens. -/
def extendFirst (c : Char) : List (List Char) → List (List Char)
  | [] => [[c]]
  | token :: rest => (c :: token) :: rest

/-- The tokens of a text that stands after a slash; none where a tilde is not an escape. -/
def decode : List Char → Option (List (List Char))
  | [] => some [[]]
  | '/' :: rest => (decode rest).map ([] :: ·)
  | '~' :: '0' :: rest => (decode rest).map (extendFirst '~')
  | '~' :: '1' :: rest => (decode rest).map (extendFirst '/')
  | '~' :: _ => none
  | c :: rest => (decode rest).map (extendFirst c)

/-- The pointer to the whole document. -/
def root : Pointer := ⟨[]⟩

/-- The written form. -/
def text (p : Pointer) : String := String.ofList (encode p.tokens)

/-- The pointer a text denotes. -/
def parse? (text : String) : Except Malformed Pointer :=
  match text.toList with
  | [] => .ok root
  | '/' :: rest =>
      match decode rest with
      | some tokens => .ok ⟨tokens.map String.ofList⟩
      | none => .error (.invalidEscape text)
  | _ => .error (.missingLeadingSlash text)

/-- The pointer to the member called `name`. -/
def key (p : Pointer) (name : String) : Pointer := ⟨p.tokens ++ [name]⟩

/-- The pointer to the item at `position`. -/
def index (p : Pointer) (position : Nat) : Pointer := p.key (toString position)

/-- The node at `suffix`, seen from the node at `p`. -/
def join (p suffix : Pointer) : Pointer := ⟨p.tokens ++ suffix.tokens⟩

/-- The pointer one level up; the root has none. -/
def parent? (p : Pointer) : Option Pointer :=
  if p.tokens.isEmpty then none else some ⟨p.tokens.dropLast⟩

/-- The pointer itself and everything above it, the root last. -/
def ancestors (p : Pointer) : List Pointer :=
  (List.range (p.tokens.length + 1)).reverse.map fun n => ⟨p.tokens.take n⟩

/-- Pointers are ordered by their written forms. -/
instance : Ord Pointer := ⟨fun p q => compare p.text q.text⟩

end Pointer

end Stencil

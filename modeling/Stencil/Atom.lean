import Stencil.Token

/-!
# Atoms

To be assembled, a row of tokens is read as one stream of atoms: the characters of
its literal tokens, each at its location, and its variables and links, each as a
whole. A control block is a gap. It has no meaning and no width, but what must
stand together in the text, such as the two slashes of a comment or the digits of
a number, does not reach across it.
-/

namespace Stencil

/-- What a directive in the stream asks for. -/
inductive Directive.Meaning where
  | variable (expression : String)
  | link (link : Link)
  deriving DecidableEq, Repr, Inhabited

/-- A variable or a link of a template. -/
structure Directive where
  /-- The directive's number among the tokens of its template. -/
  number : Nat
  meaning : Directive.Meaning
  raw : String
  range : Range
  deriving DecidableEq, Repr, Inhabited

namespace Directive

def kind (d : Directive) : TokenKind :=
  match d.meaning with
  | .variable _ => .variable
  | .link _ => .importDirective

def isLink (d : Directive) : Bool :=
  match d.meaning with
  | .variable _ => false
  | .link _ => true

/-- The directive that a token is; `number` is the token's place in its row. -/
def ofToken? (number : Nat) (t : Token) : Option Directive :=
  match t.content with
  | .variable expression => some ⟨number, .variable expression, t.raw, t.range⟩
  | .link link => some ⟨number, .link link, t.raw, t.range⟩
  | _ => none

/-- The directives of a row of tokens whose first one has the given number. -/
def ofTokens (number : Nat) : List Token → List Directive
  | [] => []
  | t :: rest => (ofToken? number t).toList ++ ofTokens (number + 1) rest

end Directive

inductive Atom where
  | char (place : Location) (c : Char)
  | gap
  | directive (d : Directive)
  deriving DecidableEq, Repr, Inhabited

namespace Atom

/-- The characters of a text, each at its location. -/
def chars (place : Location) : List Char → List Atom
  | [] => []
  | c :: rest => .char place c :: chars (place.advance c) rest

/-- The atoms of a token with the given number. -/
def ofToken (number : Nat) (t : Token) : List Atom :=
  match t.content with
  | .literal => chars t.range.first t.raw.toList
  | .control _ => [.gap]
  | _ => (Directive.ofToken? number t).toList.map .directive

/-- The atoms of a row of tokens whose first one has the given number. -/
def ofTokens (number : Nat) : List Token → List Atom
  | [] => []
  | t :: rest => ofToken number t ++ ofTokens (number + 1) rest

end Atom

/-- The location at the end of a row of tokens. -/
def endOfTokens (tokens : List Token) : Location :=
  match tokens.getLast? with
  | some t => t.range.last
  | none => .start

end Stencil

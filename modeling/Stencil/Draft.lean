import Stencil.Json.Number
import Stencil.Lexeme

/-!
# Drafts

A draft is the syntax of one template: its value with directives in the places of
what they stand for, the links declared around it, and the first fault, at which
the draft ends. What was complete by then stays. A container that was open keeps
its finished elements and members, and a value or a key that was not finished
leaves only the variables inside it, because they have been met by then.

A draft is built lexeme by lexeme. The builder knows the place in the document
where it stands, a path through the open containers with all that is finished in
them, and what may come there.
-/

namespace Stencil

mutual

/-- The syntax of a value. -/
inductive Node where
  /-- Null, a truth value or a number. -/
  | scalar (value : Json)
  | text (pieces : List Piece)
  | directive (d : Directive)
  | array (elements : Elements)
  | object (members : Members)
  /-- A value that was not finished, with the pieces it began with. -/
  | broken (pieces : List Piece)

/-- The elements of an array, each after the earlier ones. -/
inductive Elements where
  | none
  | add (earlier : Elements) (place : Location) (value : Node)

/-- The members of an object, each after the earlier ones. -/
inductive Members where
  | none
  | add (earlier : Members) (place : Location) (key : List Piece) (value : Node)
  /-- A directive whose value's members become members here. -/
  | spread (earlier : Members) (d : Directive)

end

namespace Node

instance : Inhabited Node := ⟨.broken []⟩

def isBroken : Node → Bool
  | .broken _ => true
  | _ => false

/-- The kind of text that a value is. -/
def kind : Node → TokenKind
  | .directive d => d.kind
  | _ => .literal

end Node

/-- A fault and where it is. -/
structure FaultAt where
  place : Location
  fault : Fault
  deriving DecidableEq, Repr, Inhabited

/-- The syntax of a template. -/
structure Draft where
  /-- The links declared before the value. -/
  leading : List Directive
  /-- The value and where it starts; none in a template without a value. -/
  body : Option (Location × Node)
  /-- The links declared after the value. -/
  trailing : List Directive
  fault : Option FaultAt
  deriving Inhabited

namespace Draft

/-- A place for a value: what is finished around it. -/
inductive Hole where
  | body (leading : List Directive)
  | element (outer : Hole) (start : Location) (earlier : Elements)
  | member (outer : Hole) (start : Location) (earlier : Members) (place : Location)
      (key : List Piece)
  deriving Inhabited

/-- Where a builder stands. In a container, `outer` is the place of the container and `start`
its location. -/
inductive Builder where
  /-- Before the value. -/
  | body (leading : List Directive)
  | element (outer : Hole) (start : Location) (earlier : Elements)
  | afterElement (outer : Hole) (start : Location) (earlier : Elements)
  | member (outer : Hole) (start : Location) (earlier : Members)
  | afterMember (outer : Hole) (start : Location) (earlier : Members)
  /-- After a link whose members were spread; a comma may follow. -/
  | afterLink (outer : Hole) (start : Location) (earlier : Members)
  | colon (outer : Hole) (start : Location) (earlier : Members) (place : Location)
      (key : List Piece)
  | memberValue (outer : Hole) (start : Location) (earlier : Members) (place : Location)
      (key : List Piece)
  /-- After the value. -/
  | finished (leading : List Directive) (start : Location) (value : Node)
      (trailing : List Directive)
  /-- At a fault. -/
  | stopped (draft : Draft)
  deriving Inhabited

namespace Hole

/-- Goes on behind a finished value. -/
def fill (start : Location) (value : Node) : Hole → Builder
  | .body leading => .finished leading start value []
  | .element outer first earlier => .afterElement outer first (earlier.add start value)
  | .member outer first earlier place key =>
      .afterMember outer first (earlier.add place key value)

/-- Closes all that is open around a value that a fault cut short. -/
def close (start : Location) (value : Node) : Hole → List Directive × Location × Node
  | .body leading => (leading, start, value)
  | .element outer first earlier => outer.close first (.array (earlier.add start value))
  | .member outer first earlier place key =>
      outer.close first (.object (earlier.add place key value))

/-- The draft that ends at a fault in a value. -/
def stop (start : Location) (value : Node) (fault : FaultAt) (h : Hole) : Draft :=
  let (leading, start, value) := h.close start value
  ⟨leading, some (start, value), [], some fault⟩

end Hole

namespace Builder

/-- Stops at a fault inside a value that started at `start`. -/
def failValue (hole : Hole) (start : Location) (value : Node) (place : Location) (fault : Fault) :
    Builder :=
  .stopped (hole.stop start value ⟨place, fault⟩)

/-- Takes the lexeme that starts a value. -/
def takeValue (hole : Hole) (l : Lexeme) : Builder :=
  match l.kind with
  | .directive d => hole.fill l.place (.directive d)
  | .text pieces => hole.fill l.place (.text pieces)
  | .number chars =>
      match Json.Number.ofText? chars with
      | some n => hole.fill l.place (.scalar (.number n))
      | none => failValue hole l.place (.broken []) l.place (.invalidNumber (String.ofList chars))
  | .word chars =>
      match String.ofList chars with
      | "true" => hole.fill l.place (.scalar (.bool true))
      | "false" => hole.fill l.place (.scalar (.bool false))
      | "null" => hole.fill l.place (.scalar .null)
      | word => failValue hole l.place (.broken []) l.place (.unexpectedWord word)
  | .mark '\x7b' => .member hole l.place .none
  | .mark '[' => .element hole l.place .none
  | .mark c | .stray c => failValue hole l.place (.broken []) l.place (.unexpectedCharacter c)
  | .brokenText pieces place fault => failValue hole l.place (.broken pieces) place fault
  | .openComment => failValue hole l.place (.broken []) l.place .openComment

/-- The character a lexeme starts with, for the lexemes that cannot be keys. -/
def firstChar : Lexeme.Kind → Char
  | .mark c | .stray c => c
  | .number (c :: _) | .word (c :: _) => c
  | _ => '"'

/-- Takes a lexeme where a member of an object, or its end, is expected. -/
def takeMember (outer : Hole) (start : Location) (earlier : Members) (l : Lexeme) : Builder :=
  match l.kind with
  | .mark '\x7d' => outer.fill start (.object earlier)
  | .text key => .colon outer start earlier l.place key
  | .directive d =>
      if d.isLink then .afterLink outer start (earlier.spread d)
      else .afterMember outer start (earlier.spread d)
  | .brokenText pieces place fault =>
      failValue outer start (.object (earlier.add l.place pieces (.broken []))) place fault
  | .openComment => failValue outer start (.object earlier) l.place .openComment
  | kind => failValue outer start (.object earlier) l.place (.notAKey (firstChar kind))

/-- The fault of a lexeme that stands where something else is expected. -/
def unexpected (expected : Expected) : Lexeme.Kind → Fault
  | .openComment => .openComment
  | _ => .missing expected

/-- Goes on by one lexeme. -/
def step : Builder → Lexeme → Builder
  | .body leading, l =>
      match l.kind with
      | .openComment => .stopped ⟨leading, none, [], some ⟨l.place, .openComment⟩⟩
      | .directive d =>
          if d.isLink then .body (leading ++ [d]) else takeValue (.body leading) l
      | _ => takeValue (.body leading) l
  | .element outer start earlier, l =>
      match l.kind with
      | .mark ']' => outer.fill start (.array earlier)
      | .openComment => failValue outer start (.array earlier) l.place .openComment
      | _ => takeValue (.element outer start earlier) l
  | .afterElement outer start earlier, l =>
      match l.kind with
      | .mark ',' => .element outer start earlier
      | .mark ']' => outer.fill start (.array earlier)
      | .directive d =>
          if d.isLink then takeValue (.element outer start earlier) l
          else failValue outer start (.array earlier) l.place (.missing .commaOrBracket)
      | kind => failValue outer start (.array earlier) l.place (unexpected .commaOrBracket kind)
  | .member outer start earlier, l => takeMember outer start earlier l
  | .afterMember outer start earlier, l =>
      match l.kind with
      | .mark ',' => .member outer start earlier
      | .mark '\x7d' => outer.fill start (.object earlier)
      | .directive d =>
          if d.isLink then takeMember outer start earlier l
          else failValue outer start (.object earlier) l.place (.missing .commaOrBrace)
      | kind => failValue outer start (.object earlier) l.place (unexpected .commaOrBrace kind)
  | .afterLink outer start earlier, l =>
      match l.kind with
      | .mark ',' => .member outer start earlier
      | _ => takeMember outer start earlier l
  | .colon outer start earlier place key, l =>
      match l.kind with
      | .mark ':' => .memberValue outer start earlier place key
      | kind =>
          failValue outer start (.object (earlier.add place key (.broken []))) l.place
            (unexpected .colon kind)
  | .memberValue outer start earlier place key, l =>
      takeValue (.member outer start earlier place key) l
  | .finished leading start value trailing, l =>
      match l.kind with
      | .openComment =>
          .stopped ⟨leading, some (start, value), trailing, some ⟨l.place, .openComment⟩⟩
      | .directive d =>
          if d.isLink then .finished leading start value (trailing ++ [d])
          else .stopped
            ⟨leading, some (start, value), trailing, some ⟨l.place, .contentAfterValue⟩⟩
      | _ =>
          .stopped ⟨leading, some (start, value), trailing, some ⟨l.place, .contentAfterValue⟩⟩
  | .stopped draft, _ => .stopped draft

/-- The draft that a place in a container gives when the template ends there. -/
def endIn (hole : Hole) (start : Location) (value : Node) (last : Location)
    (expected : Expected) : Draft :=
  hole.stop start value ⟨last, .unexpectedEnd expected⟩

/-- The draft of a template that ends at `last`. -/
def finish (last : Location) : Builder → Draft
  | .body leading => ⟨leading, none, [], none⟩
  | .element outer start earlier => endIn outer start (.array earlier) last .closingBracket
  | .afterElement outer start earlier => endIn outer start (.array earlier) last .commaOrBracket
  | .member outer start earlier | .afterLink outer start earlier =>
      endIn outer start (.object earlier) last .closingBrace
  | .afterMember outer start earlier => endIn outer start (.object earlier) last .commaOrBrace
  | .colon outer start earlier place key =>
      endIn outer start (.object (earlier.add place key (.broken []))) last .colon
  | .memberValue outer start earlier place key =>
      endIn outer start (.object (earlier.add place key (.broken []))) last .value
  | .finished leading start value trailing => ⟨leading, some (start, value), trailing, none⟩
  | .stopped draft => draft

end Builder

/-- The draft that lexemes make up, in a template that ends at `last`. -/
def ofLexemes (last : Location) (lexemes : List Lexeme) : Draft :=
  (lexemes.foldl Builder.step (.body [])).finish last

/-- The draft of a template, given its tokens. -/
def ofTokens (tokens : List Token) : Draft :=
  let last := endOfTokens tokens
  ofLexemes last (Lexeme.ofAtoms last (Atom.ofTokens 0 tokens))

end Draft

end Stencil

import Stencil.Atom
import Stencil.Fault
import Stencil.Json.Reader
import Stencil.Text.Letter

/-!
# Lexemes

The atoms of a template make up lexemes: punctuation, strings, numbers, words,
directives outside strings, and characters that can stand nowhere. Blanks, the
byte order mark and comments lie between lexemes and are dropped. A string is a
row of pieces, characters and variables.

A string that breaks off is a lexeme too. It keeps the pieces read so far and what
is wrong where, and nothing comes after it; so does a block comment without an
end.

Reading goes through the atoms one by one. Its state says what is being read, and
an atom that does not continue it completes it and is then looked at afresh.
-/

namespace Stencil

/-- A part of a string. -/
inductive Piece where
  | char (c : Char)
  | variable (d : Directive)
  deriving DecidableEq, Repr, Inhabited

inductive Lexeme.Kind where
  /-- One of the braces, the brackets, the comma and the colon. -/
  | mark (c : Char)
  | text (pieces : List Piece)
  /-- A maximal run of the characters of numbers. -/
  | number (chars : List Char)
  | word (chars : List Char)
  | directive (d : Directive)
  /-- A character that starts no lexeme. -/
  | stray (c : Char)
  | brokenText (pieces : List Piece) (place : Location) (fault : Fault)
  | openComment
  deriving DecidableEq, Repr, Inhabited

structure Lexeme where
  place : Location
  kind : Lexeme.Kind
  deriving DecidableEq, Repr, Inhabited

namespace Lexeme

/-- An escape of four hexadecimal digits that is being read, in a string. -/
structure Escape where
  /-- Where the string starts. -/
  start : Location
  /-- The pieces of the string so far, last first. -/
  pieces : List Piece
  /-- Where the escape's letter stands. -/
  letter : Location
  /-- The first surrogate of a pair, when the escape is for the second one. -/
  high : Option Nat
  deriving DecidableEq, Repr, Inhabited

/-- What a reader is in the middle of. Pieces and characters stand last first. -/
inductive Reading where
  | between
  /-- After a slash that may open a comment. -/
  | slash (start : Location)
  | lineComment
  | blockComment (start : Location)
  /-- In a block comment, after an asterisk that may close it. -/
  | blockStar (start : Location)
  | text (start : Location) (pieces : List Piece)
  | escape (start : Location) (pieces : List Piece)
  /-- The digits of an escape, with the place of the first one. -/
  | digits (escape : Escape) (place : Location) (chars : List Char)
  /-- Before the first digit of an escape. -/
  | noDigits (escape : Escape)
  /-- Where a gap stands in the place of the first digit. -/
  | digitsMissing (escape : Escape)
  /-- After a first surrogate, before the backslash of the second. -/
  | pairBackslash (escape : Escape)
  | pairLetter (escape : Escape)
  | number (start : Location) (chars : List Char)
  | word (start : Location) (chars : List Char)
  /-- After a lexeme that nothing can follow. -/
  | stopped
  deriving DecidableEq, Repr, Inhabited

def isMark (c : Char) : Bool :=
  c == '\x7b' || c == '\x7d' || c == '[' || c == ']' || c == ',' || c == ':'

/-- Blanks and the byte order mark. -/
def isFiller (c : Char) : Bool := Text.isBlank c || c == '\ufeff'

def isNumberStart (c : Char) : Bool := c == '-' || c.isDigit

def isWordChar (c : Char) : Bool := Text.isLetterOrNumeral c || c == '_'

namespace Reading

/-- The broken string, and the end of reading. -/
def breakOff (start : Location) (pieces : List Piece) (place : Location) (fault : Fault) :
    Reading × List Lexeme :=
  (.stopped, [⟨start, .brokenText pieces.reverse place fault⟩])

/-- Breaks the string off because of an escape. -/
def badEscape (e : Escape) (place : Location) : Reading × List Lexeme :=
  breakOff e.start e.pieces place .invalidUnicodeEscape

/-- Goes on after the four digits of an escape. -/
def escaped (e : Escape) (n : Nat) : Reading × List Lexeme :=
  match e.high with
  | some high =>
      if Json.Reader.isLowSurrogate n then
        (.text e.start (.char (Json.Reader.pairChar high n) :: e.pieces), [])
      else badEscape e e.letter
  | none =>
      if Json.Reader.isHighSurrogate n then
        (.pairBackslash ⟨e.start, e.pieces, e.letter, some n⟩, [])
      else if Json.Reader.isLowSurrogate n then badEscape e e.letter
      else (.text e.start (.char (Char.ofNat n) :: e.pieces), [])

/-- Takes one more digit of an escape; `place` and `chars` are those of the digits before. -/
def digit (e : Escape) (place : Location) (chars : List Char) (c : Char) :
    Reading × List Lexeme :=
  match chars with
  | [c₃, c₂, c₁] =>
      match Json.Reader.hex4? c₁ c₂ c₃ c with
      | some n => escaped e n
      | none => badEscape e place
  | _ =>
      if (Json.Reader.hexDigit? c).isSome then (.digits e place (c :: chars), [])
      else badEscape e place

/-- The character that starts a lexeme or is dropped. -/
def start (place : Location) (c : Char) : Reading × List Lexeme :=
  if isFiller c then (.between, [])
  else if c = '/' then (.slash place, [])
  else if c = '"' then (.text place [], [])
  else if isMark c then (.between, [⟨place, .mark c⟩])
  else if isNumberStart c then (.number place [c], [])
  else if Text.isLetter c then (.word place [c], [])
  else (.between, [⟨place, .stray c⟩])

/-- An atom that does not belong to anything begun before. -/
def fresh : Atom → Reading × List Lexeme
  | .char place c => start place c
  | .gap => (.between, [])
  | .directive d => (.between, [⟨d.range.first, .directive d⟩])

/-- Completes a lexeme and looks at the atom afresh. -/
def complete (l : Lexeme) (a : Atom) : Reading × List Lexeme :=
  let (reading, lexemes) := fresh a
  (reading, l :: lexemes)

/-- Goes on in a string. -/
def inText (begin : Location) (pieces : List Piece) : Atom → Reading × List Lexeme
  | .char place c =>
      if c = '"' then (.between, [⟨begin, .text pieces.reverse⟩])
      else if c = '\\' then (.escape begin pieces, [])
      else if c = '\n' then breakOff begin pieces begin .openString
      else if c.toNat < 0x20 then breakOff begin pieces place (.controlCharacter c)
      else (.text begin (.char c :: pieces), [])
  | .gap => (.text begin pieces, [])
  | .directive d =>
      if d.isLink then breakOff begin pieces begin .openString
      else (.text begin (.variable d :: pieces), [])

/-- Goes on after a backslash. -/
def inEscape (begin : Location) (pieces : List Piece) : Atom → Reading × List Lexeme
  | .char place c =>
      if c = 'u' then (.noDigits ⟨begin, pieces, place, none⟩, [])
      else
        match Json.Reader.simpleEscape? c with
        | some c => (.text begin (.char c :: pieces), [])
        | none => breakOff begin pieces place (.invalidEscape c)
  | .gap => (.escape begin pieces, [])
  | .directive d => breakOff begin pieces d.range.first .openEscape

/-- Goes on by one atom; gives the lexemes that are complete with it. -/
def step : Reading → Atom → Reading × List Lexeme
  | .between, a => fresh a
  | .slash begin, .char place c =>
      if c = '/' then (.lineComment, [])
      else if c = '*' then (.blockComment begin, [])
      else complete ⟨begin, .stray '/'⟩ (.char place c)
  | .slash begin, a => complete ⟨begin, .stray '/'⟩ a
  | .lineComment, .char place c => if c = '\n' then start place c else (.lineComment, [])
  | .lineComment, a => fresh a
  | .blockComment begin, .char _ c =>
      (if c = '*' then .blockStar begin else .blockComment begin, [])
  | .blockComment begin, _ => (.blockComment begin, [])
  | .blockStar begin, .char _ c =>
      (if c = '/' then .between else if c = '*' then .blockStar begin else .blockComment begin, [])
  | .blockStar begin, _ => (.blockComment begin, [])
  | .text begin pieces, a => inText begin pieces a
  | .escape begin pieces, a => inEscape begin pieces a
  | .noDigits e, .char place c => digit e place [] c
  | .noDigits e, .gap => (.digitsMissing e, [])
  | .noDigits e, .directive d => badEscape e d.range.first
  | .digits e place chars, .char _ c => digit e place chars c
  | .digits e place _, _ => badEscape e place
  | .digitsMissing e, .char place _ => badEscape e place
  | .digitsMissing e, .gap => (.digitsMissing e, [])
  | .digitsMissing e, .directive d => badEscape e d.range.first
  | .pairBackslash e, .char _ c =>
      if c = '\\' then (.pairLetter e, []) else badEscape e e.letter
  | .pairBackslash e, _ => badEscape e e.letter
  | .pairLetter e, .char _ c => if c = 'u' then (.noDigits e, []) else badEscape e e.letter
  | .pairLetter e, _ => badEscape e e.letter
  | .number begin chars, .char place c =>
      if Json.Reader.isNumberChar c then (.number begin (c :: chars), [])
      else complete ⟨begin, .number chars.reverse⟩ (.char place c)
  | .number begin chars, a => complete ⟨begin, .number chars.reverse⟩ a
  | .word begin chars, .char place c =>
      if isWordChar c then (.word begin (c :: chars), [])
      else complete ⟨begin, .word chars.reverse⟩ (.char place c)
  | .word begin chars, a => complete ⟨begin, .word chars.reverse⟩ a
  | .stopped, _ => (.stopped, [])

/-- The lexemes that the end of the template completes. -/
def finish (last : Location) : Reading → List Lexeme
  | .between | .lineComment | .stopped => []
  | .slash begin => [⟨begin, .stray '/'⟩]
  | .blockComment begin | .blockStar begin => [⟨begin, .openComment⟩]
  | .text begin pieces => (breakOff begin pieces begin .openString).2
  | .escape begin pieces => (breakOff begin pieces last .openEscape).2
  | .noDigits e | .digitsMissing e => (badEscape e last).2
  | .digits e place _ => (badEscape e place).2
  | .pairBackslash e | .pairLetter e => (badEscape e e.letter).2
  | .number begin chars => [⟨begin, .number chars.reverse⟩]
  | .word begin chars => [⟨begin, .word chars.reverse⟩]

/-- Reads atoms to the end of the template, which is at `last`. -/
def run (last : Location) (r : Reading) : List Atom → List Lexeme
  | [] => r.finish last
  | a :: rest =>
      let (next, lexemes) := r.step a
      lexemes ++ run last next rest

end Reading

/-- The lexemes of a template, given its atoms and the location of its end. -/
def ofAtoms (last : Location) (atoms : List Atom) : List Lexeme := Reading.run last .between atoms

end Lexeme

end Stencil

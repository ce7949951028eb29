import Stencil.Token

/-!
# Scanning

The scanner cuts a text into tokens. It goes through the text character by
character in one of a few modes, which follow strings and comments: in a string
the two slashes of a link are text, but a variable is a variable; in a comment
nothing is a directive. Where a directive starts, its end is found by looking
ahead, and the characters of the directive are then passed over; everything else
is literal text.

The result comes in two layers. The cut is a list of marks, literal characters
and whole directives, without positions; the tokens are the marks with adjacent
literal characters put together and with locations counted along. A brace that
opens a directive and is not closed ends the cut before that brace.
-/

namespace Stencil

/-- What a scanner is in the middle of. -/
inductive Scan.Mode where
  /-- Outside strings and comments. -/
  | plain
  | string
  /-- In a string, after a backslash. -/
  | escape
  | lineComment
  /-- Between the two characters that open a block comment. -/
  | blockOpening
  | blockComment
  /-- Between the two characters that close a block comment. -/
  | blockClosing
  deriving DecidableEq, Repr, Inhabited

/-- The directives that are written between two pairs of characters. -/
inductive Scan.Bracket where
  | variable
  | control
  deriving DecidableEq, Repr, Inhabited

/-- One piece of a cut text. -/
inductive Scan.Mark where
  | char (c : Char)
  | directive (content : Token.Content) (raw : List Char)
  deriving DecidableEq, Repr, Inhabited

namespace Scan

namespace Bracket

def opening : Bracket → List Char
  | .variable => ['\x7b', '\x7b']
  | .control => ['\x7b', '%']

def closing : Bracket → List Char
  | .variable => ['\x7d', '\x7d']
  | .control => ['%', '\x7d']

/-- The content of a token whose body, the text between the brackets, is given. -/
def content (b : Bracket) (body : List Char) : Token.Content :=
  let trimmed := String.ofList (Text.trim body)
  match b with
  | .variable => .variable trimmed
  | .control => .control trimmed

/-- The bracket that opens at the start of a text. -/
def at? (text : List Char) : Option Bracket :=
  if Bracket.variable.opening.isPrefixOf text then some .variable
  else if Bracket.control.opening.isPrefixOf text then some .control
  else none

end Bracket

/-- Whether brackets open directives in a mode. -/
def Mode.seesBrackets : Mode → Bool
  | .plain | .string => true
  | _ => false

/-- The mode after a literal character, given the character and what follows it. -/
def Mode.next (mode : Mode) (c : Char) (rest : List Char) : Mode :=
  match mode with
  | .plain =>
      if c = '/' ∧ rest.head? = some '*' then .blockOpening
      else if c = '/' ∧ rest.head? = some '/' then .lineComment
      else if c = '"' then .string
      else .plain
  | .string =>
      if c = '\\' then .escape else if c = '"' ∨ c = '\n' then .plain else .string
  | .escape => if c = '\n' then .plain else .string
  | .lineComment => if c = '\n' then .plain else .lineComment
  | .blockOpening => .blockComment
  | .blockComment => if c = '*' ∧ rest.head? = some '/' then .blockClosing else .blockComment
  | .blockClosing => .plain

/-- What the scanner finds at a place in the text. -/
inductive Find where
  /-- A character of literal text, and the mode after it. -/
  | literal (next : Mode)
  /-- A directive with its text. -/
  | directive (content : Token.Content) (raw : List Char)
  /-- A bracket that is never closed. -/
  | unclosed (bracket : Bracket)
  deriving DecidableEq, Repr, Inhabited

/-- What stands at a place, given the mode, the character there and what follows it. -/
def find (mode : Mode) (c : Char) (rest : List Char) : Find :=
  match if mode.seesBrackets then Bracket.at? (c :: rest) else none with
  | some bracket =>
      match Text.before? bracket.closing (rest.drop 1) with
      | some body =>
          .directive (bracket.content body) (bracket.opening ++ body ++ bracket.closing)
      | none => .unclosed bracket
  | none =>
      match if mode = .plain then Link.read? (c :: rest) else none with
      | some (link, after) =>
          .directive (.link link) ((c :: rest).take (rest.length + 1 - after.length))
      | none => .literal (mode.next c rest)

/-- A text in pieces, and the bracket that was not closed, if the cut ended at one. -/
structure Cut where
  marks : List Mark
  unclosed : Option Bracket
  deriving DecidableEq, Repr, Inhabited

/-- Cuts a text, of which the first `passed` characters belong to a directive already found. -/
def cut (mode : Mode) : (passed : Nat) → List Char → Cut
  | _, [] => ⟨[], none⟩
  | passed + 1, _ :: rest => cut mode passed rest
  | 0, c :: rest =>
      match find mode c rest with
      | .literal next =>
          let tail := cut next 0 rest
          ⟨.char c :: tail.marks, tail.unclosed⟩
      | .directive content raw =>
          let tail := cut mode (raw.length - 1) rest
          ⟨.directive content raw :: tail.marks, tail.unclosed⟩
      | .unclosed bracket => ⟨[], some bracket⟩

/-- The literal token of some characters; no characters make no token. -/
def literal (start : Location) (chars : List Char) : List Token :=
  if chars.isEmpty then []
  else [⟨.literal, String.ofList chars, ⟨start, start.advanceOver chars⟩⟩]

/-- The tokens of some marks. The literal characters since `start` stand in `pending`, last
first. -/
def gather (start : Location) (pending : List Char) : List Mark → List Token
  | [] => literal start pending.reverse
  | .char c :: marks => gather start (c :: pending) marks
  | .directive content raw :: marks =>
      let before := pending.reverse
      let first := start.advanceOver before
      let last := first.advanceOver raw
      literal start before ++ ⟨content, String.ofList raw, ⟨first, last⟩⟩ :: gather last [] marks

/-- The location at the end of some marks. -/
def finish (start : Location) : List Mark → Location
  | [] => start
  | .char c :: marks => finish (start.advance c) marks
  | .directive _ raw :: marks => finish (start.advanceOver raw) marks

end Scan

/-- A bracket without its partner; the range is empty and stands before the bracket. -/
structure ScanError where
  bracket : Scan.Bracket
  range : Range
  deriving DecidableEq, Repr, Inhabited

namespace ScanError

def message (e : ScanError) : String :=
  let opening := String.ofList e.bracket.opening
  let closing := String.ofList e.bracket.closing
  s!"unclosed '{opening}': expected '{closing}' before end of file"

end ScanError

/-- The tokens of a text, up to the error if there is one. -/
structure Scan where
  tokens : List Token
  error : Option ScanError
  deriving DecidableEq, Repr, Inhabited

/-- Scans a text. -/
def Scan.ofText (text : String) : Scan :=
  let cut := Scan.cut .plain 0 text.toList
  ⟨gather .start [] cut.marks,
    cut.unclosed.map fun bracket => ⟨bracket, .empty (finish .start cut.marks)⟩⟩

end Stencil

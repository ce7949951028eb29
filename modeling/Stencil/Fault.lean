/-!
# Faults in the syntax of a template

What can be wrong with the literal text of a template, and how it is put to
people. A template is read up to its first fault.
-/

namespace Stencil

/-- What the reader of a template was waiting for. -/
inductive Expected where
  | value
  | closingBrace
  | closingBracket
  | colon
  | commaOrBrace
  | commaOrBracket
  deriving DecidableEq, Repr, Inhabited

namespace Expected

def text : Expected → String
  | .value => "a value"
  | .closingBrace => "'\x7d'"
  | .closingBracket => "']'"
  | .colon => "':'"
  | .commaOrBrace => "',' or '\x7d'"
  | .commaOrBracket => "',' or ']'"

end Expected

/-- What is wrong at a place in a template. -/
inductive Fault where
  | openComment
  | openString
  | openEscape
  | controlCharacter (c : Char)
  | invalidEscape (c : Char)
  | invalidUnicodeEscape
  | invalidNumber (text : String)
  | unexpectedWord (text : String)
  | unexpectedCharacter (c : Char)
  | unexpectedEnd (expected : Expected)
  | missing (expected : Expected)
  | notAKey (found : Char)
  | contentAfterValue
  deriving DecidableEq, Repr, Inhabited

namespace Fault

/-- A code point as `U+` and at least four upper-case hexadecimal digits. -/
def codePoint (c : Char) : String :=
  let digits := (Nat.toDigits 16 c.toNat).map Char.toUpper
  "U+" ++ String.ofList (List.replicate (4 - digits.length) '0' ++ digits)

def message : Fault → String
  | .openComment => "unterminated block comment"
  | .openString => "unterminated string"
  | .openEscape => "unterminated escape sequence"
  | .controlCharacter c => s!"control character {codePoint c} in string"
  | .invalidEscape c => "invalid escape '\\" ++ c.toString ++ "'"
  | .invalidUnicodeEscape => "invalid unicode escape"
  | .invalidNumber text => s!"invalid number '{text}'"
  | .unexpectedWord text => s!"unexpected '{text}'"
  | .unexpectedCharacter c => s!"unexpected character '{c}'"
  | .unexpectedEnd expected => s!"unexpected end of input, expected {expected.text}"
  | .missing expected => s!"expected {expected.text}"
  | .notAKey found => s!"expected a string key or '\x7d', found '{found}'"
  | .contentAfterValue => "unexpected content after the top-level value"

end Fault

end Stencil

import Stencil.Link
import Stencil.SourceMap

/-!
# Tokens

A template's text is a row of tokens. Three kinds are directives: a variable
between double braces, a control block between braces with percent signs, and a
link, which imports a file. Everything between directives is literal text. A token
keeps its own text to the last character, so the texts of the tokens put together
are the text of the template.
-/

namespace Stencil

/-- What a token is, beside its text. -/
inductive Token.Content where
  | literal
  /-- The trimmed text between the braces. -/
  | variable (expression : String)
  | link (link : Link)
  /-- The trimmed text between the percent signs. -/
  | control (statement : String)
  deriving DecidableEq, Repr, Inhabited

structure Token where
  content : Token.Content
  raw : String
  range : Range
  deriving DecidableEq, Repr, Inhabited

namespace Token

def kind (t : Token) : TokenKind :=
  match t.content with
  | .literal => .literal
  | .variable _ => .variable
  | .link _ => .importDirective
  | .control _ => .controlBlock

end Token

end Stencil

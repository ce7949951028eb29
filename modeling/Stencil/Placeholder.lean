import Stencil.Json.Basic
import Stencil.Text.Blank
import Stencil.Text.Letter

/-!
# Placeholders

Expressions are not evaluated. A variable that is not the name of a link stands
for a value that the caller gives for it, either for the whole expression or for
the identifier the expression begins with, or else for an empty value whose shape
is guessed from the identifier. The guess looks at the last of the segments that
dots separate, without regard to case, and the first rule that applies decides.
-/

namespace Stencil

/-- The shapes of guessed values. -/
inductive Placeholder where
  | boolean
  | number
  | emptyList
  | emptyObject
  | emptyString
  deriving DecidableEq, Repr, Inhabited

namespace Placeholder

def name : Placeholder → String
  | .boolean => "Boolean"
  | .number => "Number"
  | .emptyList => "EmptyList"
  | .emptyObject => "EmptyObject"
  | .emptyString => "EmptyString"

/-- The empty value of a shape. -/
def value : Placeholder → Json
  | .boolean => .bool false
  | .number => .ofNat 0
  | .emptyList => .array []
  | .emptyObject => .object []
  | .emptyString => .string ""

/-- Whether `part` occurs in a text. -/
def occurs (part text : List Char) : Bool := (Text.before? part text).isSome

/-- The beginnings of names for truth values. -/
def booleanStarts : List String := ["is", "has"]

def numberWords : List String := ["count", "size", "length"]

def listWords : List String := ["list", "items", "array"]

def objectWords : List String := ["data", "config", "options"]

/-- The characters after the last dot. -/
def lastSegment (chars : List Char) : List Char :=
  (chars.reverse.takeWhile (· != '.')).reverse

/-- The shape guessed from a name. The words are ASCII, and no character outside it has a
lower-case form that completes one of them, so only ASCII letters are lowered. -/
def infer (name : String) : Placeholder :=
  let segment := (lastSegment name.toList).map Char.toLower
  let hasAny (words : List String) : Bool := words.any fun word => occurs word.toList segment
  if booleanStarts.any fun start => start.toList.isPrefixOf segment then .boolean
  else if hasAny numberWords then .number
  else if hasAny listWords then .emptyList
  else if hasAny objectWords then .emptyObject
  else .emptyString

/-- The characters of identifiers. -/
def isIdentifierChar (c : Char) : Bool :=
  Text.isLetterOrNumeral c || c == '_' || c == '.' || c == '-'

/-- The identifier an expression begins with, `user.name` for `user.name | upper`. -/
def identifier (expression : String) : String :=
  String.ofList ((Text.trim expression.toList).takeWhile isIdentifierChar)

/-- The value of an expression that is not the name of a link. -/
def valueOf (expression : String) (given : List (String × Json)) : Json :=
  match Assoc.find? (Text.trimmed expression) given with
  | some value => value
  | none =>
      let name := identifier expression
      match Assoc.find? name given with
      | some value => value
      | none => (infer name).value

end Placeholder

end Stencil

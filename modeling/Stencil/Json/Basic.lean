import Stencil.Assoc
import Stencil.Binary64

/-!
# JSON values

A number is an integer of at most 64 bits, signed or unsigned, or a finite
double; the two never compare equal, because they are written differently. The
members of an object keep the order in which they were first written, and writing
a member again replaces its value where it stands.
-/

namespace Stencil

namespace Json

/-- A number: an integer from -2^63 to 2^64 - 1, or a finite double. -/
inductive Number where
  | integer (value : Int)
  | double (value : Binary64)
  deriving DecidableEq, Repr, Inhabited

end Json

inductive Json where
  | null
  | bool (value : Bool)
  | number (value : Json.Number)
  | string (value : String)
  | array (items : List Json)
  | object (members : List (String × Json))
  deriving Repr, Inhabited

namespace Json

/-- The integer `n` as a value. -/
def ofNat (n : Nat) : Json := .number (.integer n)

/-- The strings as an array. -/
def ofStrings (texts : List String) : Json := .array (texts.map .string)

/-- The member of an object called `name`. -/
def member? (name : String) : Json → Option Json
  | .object members => Assoc.find? name members
  | _ => none

/-- The items of an array. -/
def items? : Json → Option (List Json)
  | .array items => some items
  | _ => none

def string? : Json → Option String
  | .string text => some text
  | _ => none

def bool? : Json → Option Bool
  | .bool value => some value
  | _ => none

/-- The natural number a value is, when it is written as an integer. -/
def nat? : Json → Option Nat
  | .number (.integer (.ofNat n)) => some n
  | _ => none

/-- What a value is, with its article. -/
def describe : Json → String
  | .null => "null"
  | .bool _ => "a boolean"
  | .number _ => "a number"
  | .string _ => "a string"
  | .array _ => "an array"
  | .object _ => "an object"

end Json

end Stencil

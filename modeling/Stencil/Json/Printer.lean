import Stencil.Json.Basic
import Stencil.Binary64.Shortest

/-!
# Printing values

The compact form has no blanks. Strings escape the quote, the backslash and the
control characters below U+0020, and nothing else. A double is written with the
fewest digits that read back: with a point when its decimal exponent is from -5 to
15, and else as one digit, the others after a point, and an exponent that always
has its sign. The wide form puts every item and member on a line of its own,
indented by two spaces for each level; empty containers stay closed up.
-/

namespace Stencil.Json

/-- The lower-case hexadecimal digits of `n`, at least `width` of them. -/
def hexText (width n : Nat) : List Char :=
  let ds := Nat.toDigits 16 n
  List.replicate (width - ds.length) '0' ++ ds

/-- The written form of one character of a string. -/
def escapeChar (c : Char) : List Char :=
  match c with
  | '"' => ['\\', '"']
  | '\\' => ['\\', '\\']
  | '\x08' => ['\\', 'b']
  | '\x0c' => ['\\', 'f']
  | '\n' => ['\\', 'n']
  | '\r' => ['\\', 'r']
  | '\t' => ['\\', 't']
  | c => if c.toNat < 0x20 then '\\' :: 'u' :: hexText 4 c.toNat else [c]

/-- A string in quotes. -/
def quote (text : List Char) : List Char := '"' :: text.flatMap escapeChar ++ ['"']

/-- The decimal digits of an integer, after a minus if it is negative. -/
def integerText : Int → List Char
  | .ofNat n => Nat.toDigits 10 n
  | .negSucc n => '-' :: Nat.toDigits 10 (n + 1)

namespace Decimal

/-- The smallest decimal exponent written with a point only. -/
def minPositional : Int := -5

/-- The largest decimal exponent written with a point only. -/
def maxPositional : Int := 15

/-- A positive decimal, as the module's header says. -/
def text (d : Decimal) : List Char :=
  let ds := Nat.toDigits 10 d.digits
  let order : Int := d.exponent + ds.length - 1
  if order < minPositional ∨ maxPositional < order then
    let sign := if order < 0 then '-' else '+'
    let tail := ds.drop 1
    ds.take 1 ++ (if tail.isEmpty then [] else '.' :: tail)
      ++ 'e' :: sign :: Nat.toDigits 10 order.natAbs
  else if order < 0 then
    '0' :: '.' :: List.replicate (order.natAbs - 1) '0' ++ ds
  else
    let before := order.toNat + 1
    if before < ds.length then ds.take before ++ '.' :: ds.drop before
    else ds ++ List.replicate (before - ds.length) '0' ++ ['.', '0']

end Decimal

/-- A double's text; zero keeps its sign. -/
def doubleText (x : Binary64) : List Char :=
  let size := if x.magnitude.isZero then ['0', '.', '0'] else Decimal.text x.magnitude.shortest
  if x.negative then '-' :: size else size

def Number.text : Number → List Char
  | .integer n => integerText n
  | .double x => doubleText x

mutual

/-- The compact form of a value. -/
def compactText : Json → List Char
  | .null => ['n', 'u', 'l', 'l']
  | .bool true => ['t', 'r', 'u', 'e']
  | .bool false => ['f', 'a', 'l', 's', 'e']
  | .number n => n.text
  | .string text => quote text.toList
  | .array items => '[' :: compactItems items ++ [']']
  | .object members => '\x7b' :: compactMembers members ++ ['\x7d']

def compactItems : List Json → List Char
  | [] => []
  | [item] => compactText item
  | item :: rest => compactText item ++ ',' :: compactItems rest

def compactMembers : List (String × Json) → List Char
  | [] => []
  | [(name, value)] => quote name.toList ++ ':' :: compactText value
  | (name, value) :: rest =>
      quote name.toList ++ ':' :: compactText value ++ ',' :: compactMembers rest

end

/-- The compact form as a string. -/
def compact (value : Json) : String := String.ofList value.compactText

/-- A new line, indented for the given level. -/
def newLine (level : Nat) : List Char := '\n' :: List.replicate (2 * level) ' '

mutual

/-- The wide form of a value that stands at the given level. -/
def wideText (level : Nat) : Json → List Char
  | .array [] => ['[', ']']
  | .array (item :: rest) => '[' :: wideItems (level + 1) (item :: rest) ++ newLine level ++ [']']
  | .object [] => ['\x7b', '\x7d']
  | .object (member :: rest) =>
      '\x7b' :: wideMembers (level + 1) (member :: rest) ++ newLine level ++ ['\x7d']
  | value => compactText value

def wideItems (level : Nat) : List Json → List Char
  | [] => []
  | [item] => newLine level ++ wideText level item
  | item :: rest => newLine level ++ wideText level item ++ ',' :: wideItems level rest

def wideMembers (level : Nat) : List (String × Json) → List Char
  | [] => []
  | [(name, value)] => newLine level ++ quote name.toList ++ ':' :: ' ' :: wideText level value
  | (name, value) :: rest =>
      newLine level ++ quote name.toList ++ ':' :: ' ' :: wideText level value
        ++ ',' :: wideMembers level rest

end

/-- The wide form as a string. -/
def wide (value : Json) : String := String.ofList (wideText 0 value)

end Stencil.Json

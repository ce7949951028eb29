import Stencil.Json.Number

/-!
# Reading plain JSON

This is the reader for data, not for templates: the blanks are the four of the
standard, there are no comments and no extra commas, a control character inside a
string must be escaped, an escaped surrogate must have its partner, and containers
may nest only so deep. The text is one value and blanks.

Each reader hands back what it has not used together with the proof that it is
shorter, and that is why reading ends.
-/

namespace Stencil.Json

/-- The containers that may stand inside one another in a text from outside. -/
def maxNesting : Nat := 127

namespace Reader

def isBlank (c : Char) : Bool := c == ' ' || c == '\t' || c == '\n' || c == '\r'

/-- What is left of `text` after something has been read. -/
abbrev Rest (text : List Char) := { rest : List Char // rest.length < text.length }

theorem length_dropWhile_le (p : Char → Bool) (text : List Char) :
    (text.dropWhile p).length ≤ text.length :=
  (List.dropWhile_suffix p).length_le

/-- What is left after blanks. -/
def skipBlanks (text : List Char) : List Char := text.dropWhile isBlank

theorem length_skipBlanks_le (text : List Char) : (skipBlanks text).length ≤ text.length :=
  length_dropWhile_le _ _

def hexDigit? (c : Char) : Option Nat :=
  if c.isDigit then some (c.toNat - '0'.toNat)
  else if 'a' ≤ c ∧ c ≤ 'f' then some (c.toNat - 'a'.toNat + 10)
  else if 'A' ≤ c ∧ c ≤ 'F' then some (c.toNat - 'A'.toNat + 10)
  else none

/-- The number four hexadecimal digits denote. -/
def hex4? (a b c d : Char) : Option Nat := do
  return (((← hexDigit? a) * 16 + (← hexDigit? b)) * 16 + (← hexDigit? c)) * 16 + (← hexDigit? d)

/-- The character a backslash and `c` stand for, `u` apart. -/
def simpleEscape? : Char → Option Char
  | '"' => some '"'
  | '\\' => some '\\'
  | '/' => some '/'
  | 'b' => some '\x08'
  | 'f' => some '\x0c'
  | 'n' => some '\n'
  | 'r' => some '\r'
  | 't' => some '\t'
  | _ => none

def isHighSurrogate (n : Nat) : Bool := 0xd800 ≤ n && n < 0xdc00

def isLowSurrogate (n : Nat) : Bool := 0xdc00 ≤ n && n < 0xe000

/-- The character that two surrogates make. -/
def pairChar (high low : Nat) : Char :=
  Char.ofNat (0x10000 + (high - 0xd800) * 0x400 + (low - 0xdc00))

/-- The rest of a string after its opening quote, and what follows the closing one. -/
def stringTail (done : List Char) : List Char → Option (List Char × List Char)
  | '"' :: rest => some (done.reverse, rest)
  | '\\' :: 'u' :: a :: b :: c :: d :: rest =>
      match hex4? a b c d with
      | none => none
      | some n =>
          if isHighSurrogate n then
            match rest with
            | '\\' :: 'u' :: a :: b :: c :: d :: rest =>
                match hex4? a b c d with
                | some m =>
                    if isLowSurrogate m then stringTail (pairChar n m :: done) rest else none
                | none => none
            | _ => none
          else if isLowSurrogate n then none
          else stringTail (Char.ofNat n :: done) rest
  | '\\' :: e :: rest =>
      match simpleEscape? e with
      | some c => stringTail (c :: done) rest
      | none => none
  | c :: rest => if c.toNat < 0x20 ∨ c = '\\' then none else stringTail (c :: done) rest
  | [] => none

theorem length_stringTail_lt {done text : List Char} {r : List Char × List Char}
    (h : stringTail done text = some r) : r.2.length < text.length := by
  fun_induction stringTail done text with
  | case1 done rest => cases h; simp
  | _ => simp_all <;> omega

def isNumberChar (c : Char) : Bool :=
  c.isDigit || c == '-' || c == '+' || c == '.' || c == 'e' || c == 'E'

/-- A value that is neither a container nor a string. -/
def atom (text : List Char) : Option (Json × Rest text) :=
  match text with
  | 'n' :: 'u' :: 'l' :: 'l' :: rest => some (.null, ⟨rest, by grind⟩)
  | 't' :: 'r' :: 'u' :: 'e' :: rest => some (.bool true, ⟨rest, by grind⟩)
  | 'f' :: 'a' :: 'l' :: 's' :: 'e' :: rest => some (.bool false, ⟨rest, by grind⟩)
  | c :: cs =>
      if c.isDigit || c == '-' then
        match Number.ofText? (c :: cs.takeWhile isNumberChar) with
        | some n =>
            some (.number n, ⟨cs.dropWhile isNumberChar,
              Nat.lt_succ_of_le (length_dropWhile_le _ _)⟩)
        | none => none
      else none
  | [] => none

mutual

/-- A value; `nesting` containers may still be opened. -/
def value (nesting : Nat) (text : List Char) : Option (Json × Rest text) :=
  have bound := length_skipBlanks_le text
  match h : skipBlanks text with
  | '"' :: cs =>
      match hs : stringTail [] cs with
      | none => none
      | some (s, rest) =>
          some (.string (String.ofList s), ⟨rest, by
            have := length_stringTail_lt hs; grind⟩)
  | '[' :: cs =>
      match nesting with
      | 0 => none
      | nesting + 1 =>
          match hb : skipBlanks cs with
          | ']' :: rest => some (.array [], ⟨rest, by
              have := length_skipBlanks_le cs; grind⟩)
          | _ => do
              let (list, rest) ← items nesting [] cs
              return (.array list, ⟨rest.1, by have := rest.2; grind⟩)
  | '\x7b' :: cs =>
      match nesting with
      | 0 => none
      | nesting + 1 =>
          match hb : skipBlanks cs with
          | '\x7d' :: rest => some (.object [], ⟨rest, by
              have := length_skipBlanks_le cs; grind⟩)
          | _ => do
              let (list, rest) ← members nesting [] cs
              return (.object list, ⟨rest.1, by have := rest.2; grind⟩)
  | cs => do
      let (v, rest) ← atom cs
      return (v, ⟨rest.1, by have := rest.2; grind⟩)
  termination_by (text.length, 0)
  decreasing_by all_goals grind

/-- The items up to the closing bracket; the earlier ones stand in `done`, last first. -/
def items (nesting : Nat) (done : List Json) (text : List Char) :
    Option (List Json × Rest text) := do
  let (item, ⟨rest, shorter⟩) ← value nesting text
  have bound := length_skipBlanks_le rest
  match h : skipBlanks rest with
  | ',' :: rest => do
      let (list, rest) ← items nesting (item :: done) rest
      return (list, ⟨rest.1, by have := rest.2; grind⟩)
  | ']' :: rest => return ((item :: done).reverse, ⟨rest, by grind⟩)
  | _ => none
  termination_by (text.length, 1)
  decreasing_by all_goals grind

/-- The members up to the closing brace, after those in `done`. -/
def members (nesting : Nat) (done : List (String × Json)) (text : List Char) :
    Option (List (String × Json) × Rest text) := do
  have bound := length_skipBlanks_le text
  match h : skipBlanks text with
  | '"' :: cs =>
      match hs : stringTail [] cs with
      | none => none
      | some (name, rest) =>
          have := length_stringTail_lt hs
          have := length_skipBlanks_le rest
          match hc : skipBlanks rest with
          | ':' :: rest => do
              let (v, ⟨rest, shorter⟩) ← value nesting rest
              let done := Assoc.insert (String.ofList name) v done
              have := length_skipBlanks_le rest
              match he : skipBlanks rest with
              | ',' :: rest => do
                  let (list, rest) ← members nesting done rest
                  return (list, ⟨rest.1, by have := rest.2; grind⟩)
              | '\x7d' :: rest => return (done, ⟨rest, by grind⟩)
              | _ => none
          | _ => none
  | _ => none
  termination_by (text.length, 0)
  decreasing_by all_goals grind

end

end Reader

/-- The value a text holds, if it is JSON that nests at most `nesting` containers. -/
def ofText? (nesting : Nat) (text : String) : Option Json := do
  let (value, rest) ← Reader.value nesting text.toList
  if rest.1.all Reader.isBlank then some value else none

end Stencil.Json

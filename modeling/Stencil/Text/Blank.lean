/-!
# Blank characters

A character is blank when it has the `White_Space` property: the ASCII blanks,
NEL, the no-break space, and the spaces and separators of the higher blocks.
Trimming removes blanks from both ends and nothing in between.
-/

namespace Stencil.Text

/-- The characters with the `White_Space` property. -/
def isBlank (c : Char) : Bool :=
  let n := c.toNat
  (0x9 ≤ n && n ≤ 0xd) || n == 0x20 || n == 0x85 || n == 0xa0 || n == 0x1680 ||
    (0x2000 ≤ n && n ≤ 0x200a) || n == 0x2028 || n == 0x2029 || n == 0x202f ||
    n == 0x205f || n == 0x3000

/-- The characters that are blank inside a line: a space or a tab. -/
def isInlineBlank (c : Char) : Bool := c == ' ' || c == '\t'

/-- Removes blanks from both ends. -/
def trim (cs : List Char) : List Char :=
  ((cs.dropWhile isBlank).reverse.dropWhile isBlank).reverse

/-- Removes blanks from both ends of a string. -/
def trimmed (s : String) : String := String.ofList (trim s.toList)

/-- What follows `lead` when the text begins with it. -/
def after? : (lead : List Char) → List Char → Option (List Char)
  | [], cs => some cs
  | _ :: _, [] => none
  | l :: lead, c :: cs => if l = c then after? lead cs else none

theorem after?_eq_some_iff {lead cs rest : List Char} :
    after? lead cs = some rest ↔ cs = lead ++ rest := by
  induction lead generalizing cs with
  | nil => simp [after?]
  | cons l lead ih =>
      cases cs with
      | nil => simp [after?]
      | cons c cs =>
          by_cases h : l = c
          · subst h; simp [after?, ih]
          · simp [after?, h, Ne.symm h]

/-- The text before the first occurrence of `mark`, if there is one. -/
def before? (mark : List Char) : List Char → Option (List Char)
  | [] => if mark.isEmpty then some [] else none
  | c :: cs => if mark.isPrefixOf (c :: cs) then some [] else (before? mark cs).map (c :: ·)

end Stencil.Text

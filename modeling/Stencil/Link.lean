import Stencil.Path

/-!
# Links

A link is a comment of the form `// [description](path)`. Between the slashes and
the bracket only spaces and tabs may stand; the brackets and the parentheses close
on the same line, and the path is not blank. The link ends at its parenthesis, and
nothing behind that matters.

The path of a link leads to a file. After an optional scheme, a path with a slash
in front starts at the base directory and any other at the directory of the file
that holds the link; a name without an extension gets the default one; and the
whole is brought into normal form. The stem of the path's last name is what
variables call the link by.
-/

namespace Stencil

/-- The two parts of a link, each without blanks around it. -/
structure Link where
  description : String
  path : String
  deriving DecidableEq, Repr, Inhabited

namespace Link

/-- The text up to `close`, and what follows it, if it closes on this line. -/
def upTo? (close : Char) : List Char → Option (List Char × List Char)
  | [] => none
  | c :: rest =>
      if c = close then some ([], rest)
      else if c = '\n' then none
      else (upTo? close rest).map fun (inner, rest) => (c :: inner, rest)

/-- The link at the start of a text, and what follows it. -/
def read? (text : List Char) : Option (Link × List Char) := do
  let body ← Text.after? ['/', '/'] text
  let inner ← Text.after? ['['] (body.dropWhile Text.isInlineBlank)
  let (description, rest) ← upTo? ']' inner
  let target ← Text.after? ['('] rest
  let (path, rest) ← upTo? ')' target
  let path := Text.trim path
  if path.isEmpty then none
  else some (⟨String.ofList (Text.trim description), String.ofList path⟩, rest)

/-- The scheme that a link's path may begin with. -/
def scheme : List Char := ['f', 'i', 'l', 'e', ':', '/', '/']

/-- The path's characters without the scheme. -/
def bare (path : List Char) : List Char := (Text.after? scheme path).getD path

/-- The name under which variables refer to the link. -/
def name? (l : Link) : Option String :=
  Path.stem? ⟨String.ofList (bare l.path.toList)⟩

/-- Gives the name a route ends in the default extension, if it has none of its own. The program
aborts where a default extension that holds a slash is called for; here the slash goes into the
name. -/
def withExtension (extension : List Char) (r : Route) : Route :=
  match r.fileName? with
  | none => r
  | some name =>
      match splitName name with
      | (_, some _) => r
      | (stem, none) =>
          if extension.isEmpty then r else r.withFileName (stem ++ '.' :: extension)

/-- The file that a link's path leads to from the file `referrer`. -/
def target (path : String) (referrer base : Path) (extension : String) : Path :=
  let bare := bare (Text.trim path.toList)
  let start := if bare.head? = some '/' then base.route else referrer.route.directory
  let joined := start.append (Route.ofChars bare).steps
  (withExtension extension.toList joined).normal.toPath

end Link

end Stencil

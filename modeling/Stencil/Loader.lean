import Stencil.Path

/-!
# Loaders

Extraction reaches files only through a loader, which finds the canonical path of
a file and reads its text. Two paths that name the same file have the same
canonical path. A loader that refuses says why.
-/

namespace Stencil

/-- Why a file cannot be found or read. -/
inductive LoadError where
  | missing (path : Path)
  | notDirectory
  | isDirectory
  | nameTooLong
  | tooManyLinks
  | zeroInName
  | invalidEncoding
  /-- Any other refusal, in the words of the system. -/
  | refused (reason : String)
  deriving DecidableEq, Repr, Inhabited

namespace LoadError

/-- The reason, for all but a missing file. -/
def reason : LoadError → String
  | .missing path => path.text
  | .notDirectory => "Not a directory (os error 20)"
  | .isDirectory => "Is a directory (os error 21)"
  | .nameTooLong => "File name too long (os error 36)"
  | .tooManyLinks => "Too many levels of symbolic links (os error 40)"
  | .zeroInName => "file name contained an unexpected NUL byte"
  | .invalidEncoding => "stream did not contain valid UTF-8"
  | .refused reason => reason

def message : LoadError → String
  | .missing path => s!"file not found: {path.text}"
  | error => s!"I/O error: {error.reason}"

end LoadError

/-- The two questions that extraction asks about files. -/
structure Loader where
  canonicalize : Path → Except LoadError Path
  read : Path → Except LoadError String

end Stencil

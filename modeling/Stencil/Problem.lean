import Stencil.Fault
import Stencil.Loader
import Stencil.Position
import Stencil.Token.Scan

/-!
# Problems

Extraction never gives up on a problem; it records it, with its cause and its
place, and goes on with null in the place of what is missing. A problem of a whole
file has no place in it, which is shown as line and column zero.
-/

namespace Stencil

/-- The categories in which problems are reported. -/
inductive Problem.Kind where
  | circularImport
  | fileNotFound
  | parseError
  | invalidSyntax
  | cancelled
  deriving DecidableEq, Repr, Inhabited

/-- Why something could not be extracted. Links are named by the path written in them. -/
inductive Problem.Cause where
  /-- A link leads back to a file that is being assembled; the files from there on, and that
  file again. -/
  | importCycle (chain : List Path)
  /-- A link would go deeper than the limit. -/
  | tooDeep (link : String) (depth limit : Nat)
  | unresolvedRoot (error : LoadError)
  | unreadableRoot (error : LoadError)
  | unresolvedLink (link : String) (error : LoadError)
  | unreadableLink (link : String) (error : LoadError)
  | fault (fault : Fault)
  /-- What cannot give members to an object, and the directive it comes from. -/
  | notSpreadable (found : String) (directive : String)
  | unclosed (error : ScanError)
  | cancelled (link : String)
  deriving DecidableEq, Repr, Inhabited

/-- What went wrong and where; lines and columns start at one. -/
structure Problem where
  cause : Problem.Cause
  file : Path
  line : Nat
  column : Nat
  deriving DecidableEq, Repr, Inhabited

namespace Problem

def Kind.name : Kind → String
  | .circularImport => "circular_import"
  | .fileNotFound => "file_not_found"
  | .parseError => "parse_error"
  | .invalidSyntax => "invalid_syntax"
  | .cancelled => "cancelled"

namespace Cause

/-- The category; a cycle and a chain that is too deep share one. -/
def kind : Cause → Kind
  | .importCycle _ | .tooDeep .. => .circularImport
  | .unresolvedRoot _ | .unreadableRoot _ | .unresolvedLink .. | .unreadableLink .. =>
      .fileNotFound
  | .fault _ | .notSpreadable .. => .parseError
  | .unclosed _ => .invalidSyntax
  | .cancelled _ => .cancelled

def message : Cause → String
  | .importCycle chain => "circular import: " ++ " -> ".intercalate (chain.map Path.text)
  | .tooDeep link depth limit =>
      s!"max import depth exceeded: importing '{link}' would nest {depth} levels deep "
        ++ s!"(limit {limit})"
  | .unresolvedRoot error => s!"cannot load root template: {error.message}"
  | .unreadableRoot error => s!"cannot read root template: {error.message}"
  | .unresolvedLink link error => s!"cannot resolve import '{link}': {error.message}"
  | .unreadableLink link error => s!"cannot read import '{link}': {error.message}"
  | .fault cause => cause.message
  | .notSpreadable found directive => s!"cannot spread {found} from '{directive}' into an object"
  | .unclosed error => error.message
  | .cancelled link => s!"parse cancelled before reading '{link}'"

end Cause

/-- A problem at a location of a file. -/
def ofLocation (cause : Cause) (file : Path) (l : Location) : Problem :=
  ⟨cause, file, l.line, l.displayColumn⟩

/-- A problem of a whole file. -/
def ofFile (cause : Cause) (file : Path) : Problem := ⟨cause, file, 0, 0⟩

def kind (p : Problem) : Kind := p.cause.kind

def message (p : Problem) : String := p.cause.message

def isImportCycle (p : Problem) : Bool :=
  match p.cause with
  | .importCycle _ => true
  | _ => false

def isTooDeep (p : Problem) : Bool :=
  match p.cause with
  | .tooDeep .. => true
  | _ => false

/-- The problem in one line. -/
def display (p : Problem) : String :=
  s!"{p.kind.name}: {p.message} ({p.file.text}:{p.line}:{p.column})"

end Problem

end Stencil

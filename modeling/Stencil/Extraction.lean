import Stencil.Assembly
import Stencil.Options

/-!
# Extraction

Extraction starts at a root file and follows links. The files between the root and
the place where one is, all being assembled, form the trail. A link back into the
trail is a cycle and gives null. A trail may hold one file more than the import
limit, so how much deeper one may go is a number that falls by one with every
import, and following links ends even where the limit would not be reached.

For each link that is followed the ledger has a record, and behind it what comes of
the file. The questions are asked in a fixed order: whether the file exists,
whether it is on the trail, whether the limit allows it, whether the run has been
called off, and only then whether it can be read and scanned.
-/

namespace Stencil

/-- What stays the same during an extraction. -/
structure Setting where
  options : Options
  loader : Loader
  signal : Signal

/-- How following a link ended. -/
structure Followed where
  resolved : Path
  isRecursive : Bool
  assembled : Assembled

namespace Setting

/-- The links of a template by their names; of two with one name the first one counts. -/
def linkNames (directives : List Directive) : List (String × (Directive × Link)) :=
  directives.filterMap fun d =>
    match d.meaning with
    | .link link => link.name?.map fun name => (name, (d, link))
    | .variable _ => none

/-- Assembles a scanned template. -/
def assemble (s : Setting) (path : Path) (tokens : List Token)
    (follow : Directive → Link → Run Assembled) : Run Assembled := do
  Run.tell {
    variableCount := tokens.countP fun t => t.kind == .variable
    controlCount := tokens.countP fun t => t.kind == .controlBlock }
  let directives := Directive.ofTokens 0 tokens
  let scope : Scope := ⟨path, linkNames directives, s.options.defaultValues, follow⟩
  let links := directives.filter Directive.isLink
  let ((value, entries), _) ← ((Draft.ofTokens tokens).assemble scope links).run []
  return ⟨value, if s.options.buildSourceMap then .ofList entries else .empty⟩

/-- Scans and assembles the text of a file; a text that cannot be scanned gives nothing. -/
def assembleText (s : Setting) (path : Path) (text : String)
    (follow : Directive → Link → Run Assembled) : Run Assembled := do
  Run.tell { dependencies := [.ofText path text], byteCount := text.utf8ByteSize }
  let scan := Scan.ofText text
  match scan.error with
  | some error => do
      Run.report (.ofLocation (.unclosed error) path error.range.first)
      return .nothing
  | none => s.assemble path scan.tokens follow

/-- The cycle that a link to `path` would close. -/
def cycle (trail : List Path) (path : Path) : List Path :=
  trail.dropWhile (· != path) ++ [path]

/-- Follows a link from the last file of the trail, for which `follow` follows links in its
turn; `none` stands in its place where the limit is reached. -/
def enter (s : Setting) (trail : List Path) (referrer : Path) (d : Directive) (link : Link)
    (follow : Option (List Path → Path → Directive → Link → Run Assembled)) : Run Followed := do
  let target := Link.target link.path referrer s.options.basePath s.options.templateExtension
  let report (cause : Problem.Cause) := Run.report (.ofLocation cause referrer d.range.first)
  match s.loader.canonicalize target with
  | .error error => do
      Run.tell { dependencies := [.absent target] }
      report (.unresolvedLink link.path error)
      return ⟨target, false, .nothing⟩
  | .ok path =>
      if path ∈ trail then
        if s.options.allowRecursiveImports then return ⟨path, true, .nothing⟩
        else
          report (.importCycle (cycle trail path))
          return ⟨path, true, .nothing⟩
      else
        match follow with
        | none => do
            report (.tooDeep link.path trail.length s.options.maxImportDepth)
            return ⟨path, false, .nothing⟩
        | some follow => do
            let watch ← Run.watch
            if watch.raised then
              if watch.reported then return ⟨path, false, .nothing⟩
              else
                Run.noteReported
                report (.cancelled link.path)
                return ⟨path, false, .nothing⟩
            else
              match ← Run.read s.loader s.signal path with
              | .error error => do
                  Run.tell { dependencies := [.absent path] }
                  report (.unreadableLink link.path error)
                  return ⟨path, false, .nothing⟩
              | .ok text => do
                  let assembled ← s.assembleText path text (follow (trail ++ [path]) path)
                  return ⟨path, false, assembled⟩

/-- The record of a link that has been followed. -/
def record (referrer : Path) (d : Directive) (link : Link) (f : Followed) : ImportRecord where
  written := link.path
  resolved := f.resolved
  file := referrer
  range := d.range
  description := link.description
  value := f.assembled.value
  isRecursive := f.isRecursive

/-- Follows a link with `depth` further imports allowed, and keeps a record. -/
def follow (s : Setting) : (depth : Nat) → (trail : List Path) → (referrer : Path) →
    Directive → Link → Run Assembled
  | 0, trail, referrer, d, link => do
      let followed ← Run.heading (fun f => { imports := [record referrer d link f] })
        (s.enter trail referrer d link none)
      return followed.assembled
  | depth + 1, trail, referrer, d, link => do
      let followed ← Run.heading (fun f => { imports := [record referrer d link f] })
        (s.enter trail referrer d link (some (s.follow depth)))
      return followed.assembled

/-- Assembles the text of the root. -/
def assembleRoot (s : Setting) (path : Path) (text : String) : Run Assembled :=
  s.assembleText path text (s.follow s.options.maxImportDepth [path] path)

/-- Extracts from the root, which is seen from the base directory; `text?` stands for the
text of the root where it is not to be read. -/
def extractRoot (s : Setting) (root : Path) (text? : Option String) : Run Assembled := do
  let place := (s.options.basePath.join root).normalize
  let fail (path : Path) (cause : Problem.Cause) : Run Assembled := do
    Run.tell { dependencies := [.absent path] }
    Run.report (.ofFile cause path)
    return .nothing
  match text?, s.loader.canonicalize place with
  | some text, .error _ => s.assembleRoot place text
  | some text, .ok path => s.assembleRoot path text
  | none, .error error => fail place (.unresolvedRoot error)
  | none, .ok path => do
      match ← Run.read s.loader s.signal path with
      | .error error => fail path (.unreadableRoot error)
      | .ok text => s.assembleRoot path text

end Setting

/-- The result of an extraction. -/
structure Extraction where
  value : Json
  map : SourceMap
  ledger : Ledger
  deriving Inhabited

namespace Extraction

/-- Runs an extraction. -/
def run (s : Setting) (root : Path) (text? : Option String) : Extraction :=
  let outcome := s.extractRoot root text? (Run.initialWatch s.signal)
  ⟨outcome.value.value, outcome.value.map, outcome.ledger⟩

def problems (e : Extraction) : List Problem := e.ledger.problems

/-- Whether there were no problems. -/
def isOk (e : Extraction) : Bool := e.problems.isEmpty

/-- The entry for the node at a pointer or the nearest node above it that has one; none also
for a text that is no pointer. -/
def locate? (e : Extraction) (pointer : String) : Option (Pointer × Origin) := do
  let p ← (Pointer.parse? pointer).toOption
  e.map.lookup? p

end Extraction

end Stencil

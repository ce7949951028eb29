import Stencil.Extraction
import Stencil.SourceMap.Serial

/-!
# Reports

An extraction as JSON, for other programs to read: the value, the imports, the
source map, the problems and the counts, in this order.
-/

namespace Stencil

namespace ImportRecord

/-- Where the link stands, with lines and columns that start at one. -/
def span (r : ImportRecord) : Json :=
  .object [("file", .string r.file.text),
    ("startLine", .ofNat r.range.first.line),
    ("startColumn", .ofNat r.range.first.displayColumn),
    ("endLine", .ofNat r.range.last.line),
    ("endColumn", .ofNat r.range.last.displayColumn)]

def toJson (r : ImportRecord) : Json :=
  .object [("originalPath", .string r.written),
    ("resolvedPath", .string r.resolved.text),
    ("directiveSpan", r.span),
    ("description", .string r.description),
    ("parsedValue", r.value),
    ("isRecursive", .bool r.isRecursive)]

end ImportRecord

namespace Problem

/-- What is known of a problem beside its message. -/
def detail? (p : Problem) : Option Json :=
  match p.cause with
  | .importCycle chain =>
      some (.object [("type", .string "importCycle"), ("chain", .ofStrings (chain.map Path.text))])
  | .tooDeep _ depth limit =>
      some (.object [("type", .string "depthExceeded"), ("depth", .ofNat depth),
        ("maxDepth", .ofNat limit)])
  | _ => none

def toJson (p : Problem) : Json :=
  .object ([("kind", .string p.kind.name), ("message", .string p.message),
    ("file", .string p.file.text), ("line", .ofNat p.line), ("column", .ofNat p.column)]
    ++ (p.detail?.map fun detail => ("detail", detail)).toList)

end Problem

namespace Extraction

/-- The counts, without the time. -/
def counts (e : Extraction) : List (String × Json) :=
  [("importCount", .ofNat e.ledger.imports.length),
    ("variableCount", .ofNat e.ledger.variableCount),
    ("controlCount", .ofNat e.ledger.controlCount),
    ("totalSizeBytes", .ofNat e.ledger.byteCount)]

/-- The report of an extraction that took the given time in milliseconds. -/
def toJson (e : Extraction) (milliseconds : Json.Number) : Json :=
  .object [("extractedValue", e.value),
    ("imports", .array (e.ledger.imports.map ImportRecord.toJson)),
    ("sourceMap", e.map.toJson),
    ("errors", .array (e.problems.map Problem.toJson)),
    ("stats", .object (("parseTimeMs", .number milliseconds) :: e.counts))]

end Extraction

end Stencil

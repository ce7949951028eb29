import Stencil.Json.Printer
import Stencil.Path

/-!
# Options

The options of an extraction are read from an object whose members are all
optional; a member that is not known is passed over, and one of a wrong type
refuses the whole. The fingerprint is a text that shows every option that can
change an extraction.
-/

namespace Stencil

structure Options where
  /-- Whether an import of a file that is being assembled goes without a problem. -/
  allowRecursiveImports : Bool
  /-- How many imports may stand inside one another. -/
  maxImportDepth : Nat
  /-- Where links with a slash in front, and the root itself, start. -/
  basePath : Path
  /-- Values for expressions, in the order of their names. -/
  defaultValues : List (String × Json)
  buildSourceMap : Bool
  /-- The extension of links that are written without one. -/
  templateExtension : String
  deriving Repr, Inhabited

namespace Options

/-- The options that hold where nothing else is said. -/
def standard (basePath : Path) : Options where
  allowRecursiveImports := false
  maxImportDepth := 10
  basePath := basePath
  defaultValues := []
  buildSourceMap := true
  templateExtension := "tmpl"

/-- Names in increasing order; of a name that is there twice, the last value counts. -/
def sortByName (values : List (String × Json)) : List (String × Json) :=
  (Assoc.ofList values).mergeSort fun a b => decide (a.1 ≤ b.1)

/-- The value of an optional member; a member that cannot be read refuses the options. -/
def memberOr (value : Json) (name : String) (read : Json → Option α) (default : α) : Option α :=
  match value.member? name with
  | none => some default
  | some member => read member

/-- The options an object stands for, beside the standard ones. -/
def ofJson? (basePath : Path) (value : Json) : Option Options :=
  match value with
  | .object _ => do
      let standard := standard basePath
      let readNames : Json → Option (List (String × Json))
        | .object members => some (sortByName members)
        | _ => none
      return {
        allowRecursiveImports :=
          ← memberOr value "allowRecursiveImports" Json.bool? standard.allowRecursiveImports
        maxImportDepth := ← memberOr value "maxImportDepth" Json.nat? standard.maxImportDepth
        basePath := ← memberOr value "basePath" (·.string?.map Path.mk) standard.basePath
        defaultValues := ← memberOr value "defaultValues" readNames standard.defaultValues
        buildSourceMap := ← memberOr value "buildSourceMap" Json.bool? standard.buildSourceMap
        templateExtension :=
          ← memberOr value "templateExtension" Json.string? standard.templateExtension }
  | _ => none

/-- A text that shows every option that can change an extraction. -/
def fingerprint (o : Options) : String :=
  s!"base={o.basePath.text};recursive={o.allowRecursiveImports};depth={o.maxImportDepth};"
    ++ s!"map={o.buildSourceMap};ext={o.templateExtension};"
    ++ s!"defaults={(Json.object o.defaultValues).compact}"

end Options

end Stencil

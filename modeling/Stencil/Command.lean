import Stencil.Json.Reader
import Stencil.Report

/-!
# Commands

The command line has two commands. `parse` prints the report of an extraction, and
`locate` prints where the nodes at some pointers come from. Options may stand before
and after the other arguments, and their values behind an equals sign or as the next
argument, which then must not begin with a hyphen; a hyphen alone is no option. Two
hyphens end the options. No option may be given twice.

Arguments are looked at from the left. What is wrong with one ends the search, and so
does a request for help, so that the request counts only if all was well up to there.
That arguments are missing shows only at the end.

A command ends with 0 when there were no problems and with 1 when there were, or when
the file of default values is of no use; arguments that make no command end with 2.
-/

namespace Stencil

/-- What the options of a command say. -/
structure Command.Flags where
  basePath : Option Path := none
  maxDepth : Option Nat := none
  allowRecursive : Bool := false
  noSourceMap : Bool := false
  defaults : Option Path := none
  extension : Option String := none
  pretty : Bool := false
  deriving DecidableEq, Repr, Inhabited

inductive Command where
  | version
  | help
  | parse (root : Path) (flags : Command.Flags)
  | locate (root : Path) (pointers : List String) (flags : Command.Flags)
  deriving DecidableEq, Repr, Inhabited

namespace Command

/-- The program's name and version. -/
def versionText : String := "tmpl-json 0.1.0"

def helpText : String := "Usage: tmpl-json [parse | locate] [OPTIONS] ROOT [POINTERS]"

/-- The largest import limit that can be given. -/
def maxDepthLimit : Nat := Nat.pow 2 64 - 1

/-- A natural number in decimal, perhaps after a plus. -/
def natural? (text : String) : Option Nat :=
  let chars :=
    match text.toList with
    | '+' :: rest => rest
    | chars => chars
  match Json.Number.digits chars with
  | ([], _) => none
  | (digits, []) =>
      let n := Json.Number.ofDigits digits
      if n ≤ maxDepthLimit then some n else none
  | _ => none

/-- A path that is not empty. -/
def path? (text : String) : Option Path := if text.isEmpty then none else some ⟨text⟩

/-- Whether a name is that of an option with a value. -/
def takesValue (name : String) : Bool :=
  ["--base-path", "--max-depth", "--defaults", "--extension"].contains name

/-- Sets an option that has a value, unless it is set. -/
def Flags.setValue? (f : Flags) (name value : String) : Option Flags :=
  match name with
  | "--base-path" =>
      if f.basePath.isSome then none else (path? value).map fun p => { f with basePath := some p }
  | "--max-depth" =>
      if f.maxDepth.isSome then none
      else (natural? value).map fun n => { f with maxDepth := some n }
  | "--defaults" =>
      if f.defaults.isSome then none else (path? value).map fun p => { f with defaults := some p }
  | "--extension" => if f.extension.isSome then none else some { f with extension := some value }
  | _ => none

/-- Sets an option without a value, unless it is set. -/
def Flags.set? (f : Flags) (name : String) : Option Flags :=
  match name with
  | "--allow-recursive" => if f.allowRecursive then none else some { f with allowRecursive := true }
  | "--no-source-map" => if f.noSourceMap then none else some { f with noSourceMap := true }
  | "--pretty" => if f.pretty then none else some { f with pretty := true }
  | _ => none

/-- The words that commands begin with. -/
inductive Verb where
  | parse
  | locate
  deriving DecidableEq, Repr

def Verb.ofName? : String → Option Verb
  | "parse" => some .parse
  | "locate" => some .locate
  | _ => none

/-- Whether there is room for another argument beside `others`; only pointers are many. -/
def Verb.hasRoom : Verb → (others : List String) → Bool
  | .parse, others => others.isEmpty
  | .locate, _ => true

/-- Whether the option of that name belongs to the command. -/
def Verb.allows (verb : Verb) (option : String) : Bool := verb == .parse || option != "--pretty"

/-- Whether an argument is written like an option. -/
def isOption (argument : String) : Bool := argument.startsWith "-" && argument != "-"

/-- What the arguments of a command turned out to be. -/
inductive Arguments where
  | help
  | given (flags : Flags) (others : List String)

/-- Goes through the arguments of a command; the earlier ones that are no options stand in
`others`, last first. -/
def arguments? (verb : Verb) (f : Flags) (others : List String) :
    List String → Option Arguments
  | [] => some (.given f others.reverse)
  | argument :: rest =>
      if argument = "--" then some (.given f (others.reverse ++ rest))
      else if argument = "--help" ∨ argument.startsWith "-h" then some .help
      else if isOption argument then
        let name := String.ofList (argument.toList.takeWhile (· != '='))
        let attached := argument.toList.dropWhile (· != '=')
        match attached with
        | _ :: value =>
            match f.setValue? name (String.ofList value) with
            | some f => arguments? verb f others rest
            | none => none
        | [] =>
            if takesValue name then
              match rest with
              | value :: rest =>
                  if isOption value then none
                  else
                    match f.setValue? name value with
                    | some f => arguments? verb f others rest
                    | none => none
              | [] => none
            else if verb.allows name then
              match f.set? name with
              | some f => arguments? verb f others rest
              | none => none
            else none
      else if verb.hasRoom others then arguments? verb f (argument :: others) rest
      else none

/-- The command that a word and the arguments behind it make, if they make one. -/
def ofVerb? (verb : Verb) (rest : List String) : Option Command :=
  match verb, arguments? verb {} [] rest with
  | _, some .help => some .help
  | .parse, some (.given flags [root]) => some (.parse ⟨root⟩ flags)
  | .locate, some (.given flags (root :: pointer :: pointers)) =>
      some (.locate ⟨root⟩ (pointer :: pointers) flags)
  | _, _ => none

/-- What one can ask for help on, by the words behind `help`: on everything, or on one thing
that a command line may begin with. -/
def isTopic : List String → Bool
  | [] => true
  | [name] => name == "help" || (Verb.ofName? name).isSome
  | _ => false

/-- The command that arguments make, if they make one. -/
def ofArguments? : List String → Option Command
  | [] => none
  | name :: rest =>
      if name = "--version" ∨ name.startsWith "-V" then some .version
      else if name = "--help" ∨ name.startsWith "-h" then some .help
      else if name = "help" then if isTopic rest then some .help else none
      else (Verb.ofName? name).bind fun verb => ofVerb? verb rest

/-- Why a command cannot begin. -/
inductive Failure where
  | unreadableDefaults (path : Path)
  | defaultsNotObject (path : Path)
  deriving DecidableEq, Repr

def Failure.message : Failure → String
  | .unreadableDefaults path => s!"Failed to read defaults file: {path.text}"
  | .defaultsNotObject path => s!"Defaults file is not a JSON object: {path.text}"

/-- The file that a failure is about. -/
def Failure.path : Failure → Path
  | .unreadableDefaults path | .defaultsNotObject path => path

/-- The values that a file of default values gives. -/
def defaultValues (loader : Loader) : Option Path → Except Failure (List (String × Json))
  | none => .ok []
  | some path =>
      match loader.read path with
      | .error _ => .error (.unreadableDefaults path)
      | .ok text =>
          match Json.ofText? Json.maxNesting text with
          | some (.object members) => .ok (Options.sortByName members)
          | _ => .error (.defaultsNotObject path)

/-- The options that a command's flags stand for; `here` is the directory one is in. -/
def Flags.options (f : Flags) (here : Path) (values : List (String × Json)) : Options :=
  let standard := Options.standard (f.basePath.getD here)
  { standard with
    allowRecursiveImports := f.allowRecursive
    maxImportDepth := f.maxDepth.getD standard.maxImportDepth
    defaultValues := values
    buildSourceMap := !f.noSourceMap
    templateExtension :=
      match f.extension with
      | none => standard.templateExtension
      | some extension => String.ofList (extension.toList.dropWhile (· == '.')) }

/-- How a command ended. -/
structure Ending where
  exit : Nat
  output : String
  failure : Option Failure
  /-- The files that could not be found or read. -/
  absent : List Path
  deriving Inhabited

/-- The line that says where the node at a pointer comes from. -/
def locateLine (e : Extraction) (pointer : String) : String :=
  match e.locate? pointer with
  | some (_, origin) => s!"{pointer} -> {origin.place}\n"
  | none => s!"{pointer} -> ?\n"

/-- Extracts with a command's flags and prints the result; the time in milliseconds that goes
into a report is given. -/
def extract (loader : Loader) (here root : Path) (f : Flags) (print : Extraction → String) :
    Ending :=
  match defaultValues loader f.defaults with
  | .error failure => ⟨1, "", some failure, [failure.path]⟩
  | .ok values =>
      let e := Extraction.run ⟨f.options here values, loader, .never⟩ root none
      let absent := e.ledger.dependencies.filter fun d => d.digest.isNone
      ⟨if e.isOk then 0 else 1, print e, none, absent.map Dependency.path⟩

/-- Carries out a command. -/
def run (loader : Loader) (here : Path) (milliseconds : Json.Number) : Command → Ending
  | .version => ⟨0, versionText ++ "\n", none, []⟩
  | .help => ⟨0, helpText ++ "\n", none, []⟩
  | .parse root flags =>
      extract loader here root flags fun e =>
        let report := e.toJson milliseconds
        (if flags.pretty then report.wide else report.compact) ++ "\n"
  | .locate root pointers flags =>
      extract loader here root { flags with noSourceMap := false } fun e =>
        String.join (pointers.map (locateLine e))

/-- Carries out the command that arguments make; arguments that make none end with 2. -/
def runArguments (loader : Loader) (here : Path) (milliseconds : Json.Number)
    (arguments : List String) : Ending :=
  match ofArguments? arguments with
  | some command => command.run loader here milliseconds
  | none => ⟨2, "", none, []⟩

end Command

end Stencil

/-
# Running commands

A command collects schema files, catalogues the schema in them, and says what
came of it, unless cataloguing breaks off.
-/
import SchemaCatalog.Catalog.Written
import SchemaCatalog.Command.Collection
import SchemaCatalog.Files.Loading

namespace SchemaCatalog.Command

open Files (FileSystem)

/-- What a command leaves behind. -/
inductive Outcome where
  /-- The command did what it should. -/
  | success (output : String)
  /-- The command failed, and reports why. -/
  | failure (errorOutput : String)
  /-- The command broke off. -/
  | brokenOff
  deriving DecidableEq

/-- The report of a command that failed, from the reports that tell why. -/
def failureReport (what : String) (reports : List String) : String :=
  "❌ " ++ what ++ ": " ++ ": ".intercalate reports

/-- What a command leaves behind that fails as a whole if an attempt does. -/
def outcomeOf {α : Type} (what : String) (write : α → String) :
    Attempt (List String) α → Outcome
  | .ok a => .success (write a)
  | .error reports => .failure (failureReport what reports)
  | .brokenOff => .brokenOff

/-- The status that the program ends with. -/
def Outcome.exitCode : Outcome → Nat
  | success _ => 0
  | failure _ => 1
  | brokenOff => 101

/-! ## Cataloguing files -/

/-- The catalog of the schema in some files, or the reports that tell why there is
none. -/
def catalogFiles (fs : FileSystem) (paths : List Files.Path) : Attempt (List String) Catalog :=
  match Files.source fs paths with
  | .error e => .error (e.message :: e.causes)
  | .ok source =>
    source.catalog.mapError fun e =>
      ("Failed to describe the schema in " ++ toString paths.length ++ " file(s)")
        :: e.message :: e.causes

/-- What is reported while files are catalogued. -/
def catalogFilesLog (fs : FileSystem) (paths : List Files.Path) : Log :=
  Files.sourceLog fs paths ++
    match Files.source fs paths with
    | .ok source => source.log
    | .error _ => []

/-! ## Commands -/

/-- The text of a catalog. -/
def writtenCatalog (isCompact : Bool) (c : Catalog) : String :=
  if isCompact then c.toJson.compact else c.toJson.pretty

/-- Writes the catalog of the schema that the inputs hold. -/
def describe (fs : FileSystem) (isCompact : Bool) (inputs : Inputs) : Outcome :=
  match collect fs inputs with
  | .error e => .failure (failureReport "Unable to describe schema" e.reports)
  | .ok found =>
    outcomeOf "Unable to describe schema" (writtenCatalog isCompact) (catalogFiles fs found.paths)

/-- The summary of a schema that could be catalogued. -/
def summary (found : Collection) (c : Catalog) : String :=
  "✅ All GraphQL validated successfully:\n"
    ++ "  * Analyzed " ++ toString found.paths.length ++ " files.\n"
    ++ "  * Skipped " ++ toString found.skipped ++ " non-graphql files.\n"
    ++ "  * Described " ++ toString c.size ++ " type definitions.\n"
    ++ "  * Found " ++ toString c.directiveNames.length ++ " directive definitions.\n"
    ++ "  * Schema block: " ++ (if c.bindings.isSome then "present" else "absent") ++ "."

/-- Tells whether the schema that the inputs hold can be catalogued. -/
def validate (fs : FileSystem) (inputs : Inputs) : Outcome :=
  match collect fs inputs with
  | .error e => .failure (failureReport "GraphQL validation errors" e.reports)
  | .ok found =>
    outcomeOf "Errors validating schema" (summary found) (catalogFiles fs found.paths)

/-- Runs a command. -/
def Action.run (fs : FileSystem) : Action → Outcome
  | describe isCompact inputs => Command.describe fs isCompact inputs
  | validate inputs => Command.validate fs inputs

/-! ## What is reported -/

/-- What is reported before a catalog is written. -/
def writingLog (c : Catalog) : Log :=
  [.debug ("Serializing " ++ toString c.size ++ " type records.")]

/-- What is reported while files are collected and catalogued; `atEnd` is reported
if there is a catalog. -/
def inputsLog (fs : FileSystem) (inputs : Inputs) (atEnd : Catalog → Log) : Log :=
  collectLog fs inputs ++
    match collect fs inputs with
    | .error _ => []
    | .ok found =>
      catalogFilesLog fs found.paths ++
        match catalogFiles fs found.paths with
        | .ok c => atEnd c
        | .error _ | .brokenOff => []

/-- What is reported while a command runs. -/
def Action.log (fs : FileSystem) : Action → Log
  | describe _ inputs => inputsLog fs inputs writingLog
  | validate inputs => inputsLog fs inputs fun _ => []

end SchemaCatalog.Command

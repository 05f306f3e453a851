/-
# Collecting schema files

Given files and directories, all files at and below them are looked at in order.
Those with one of the extensions asked for are schema files; the others are
counted.  A file that is named alone is a schema file whatever its extension.
The paths that are gone grow with each directory that is entered, so a walk may come
to one that is too long; it ends there.
-/
import SchemaCatalog.Command.Arguments
import SchemaCatalog.Files.Tree
import SchemaCatalog.Log

namespace SchemaCatalog.Command

open Files (FileSystem Entry FileName Path)

/-- Why no files are collected. -/
inductive CollectError where
  /-- A path leads nowhere, or the walk from it comes to a directory that cannot be
  entered. -/
  | unreachable (path entry : Path) (cause : Files.PathError)
  /-- There is no path without detours to a schema file. -/
  | unlocatable (cause : Files.PathError)
  /-- There is no schema file. -/
  | noFiles (paths : List Path)
  deriving DecidableEq

/-- The reports of an error and of what lies behind it. -/
def CollectError.reports : CollectError → List String
  | unreachable path entry cause =>
    ["Failed to scan filesystem entries at/under " ++ Files.shown path,
      "IO error for operation on " ++ Text.mend entry ++ ": " ++ cause.message, cause.message]
  | unlocatable cause => [cause.message]
  | noFiles paths => ["No GraphQL files found at/under " ++ Files.shownList paths]

/-- The files that were found, and the number of files that were left out. -/
structure Collection where
  paths : List Path
  skipped : Nat
  deriving DecidableEq

/-! ## Scanning -/

/-- An extension without the dots before it. -/
def bareExtension (extension : String) : String :=
  String.ofList (extension.toList.dropWhile (· == '.'))

/-- Whether a path has one of the extensions asked for, which are texts. -/
def isSchemaPath (inputs : Inputs) (path : Path) : Bool :=
  match Files.extension? path with
  | some e => Text.mend e ∈ inputs.extensions.map bareExtension
  | none => false

/-- Whether an entry is a schema file. -/
def isSchemaFile (inputs : Inputs) (e : Entry) : Bool := e.isFile && isSchemaPath inputs e.path

/-- Why the walk from a path ends at an entry, if it does. -/
def obstacle? (inputs : Inputs) (path : Path) (e : Entry) : Option CollectError :=
  if e.isFile then
    if isSchemaPath inputs e.path then
      match Files.canonicalPath e.location with
      | .ok _ => none
      | .error cause => some (.unlocatable cause)
    else none
  else if Files.maxPathBytes < e.path.length then some (.unreachable path e.path .tooLong)
  else none

/-- All entries at and below some paths, unless one of these leads nowhere or the walk
from it does not come to its end. -/
def scan (fs : FileSystem) (inputs : Inputs) : List Path → Except CollectError (List Entry)
  | [] => .ok []
  | path :: rest =>
    match fs.resolve path with
    | .error e => .error (.unreachable path path e)
    | .ok target =>
      match (target.walk path).findSome? (obstacle? inputs path) with
      | some e => .error e
      | none =>
        match scan fs inputs rest with
        | .ok entries => .ok (target.walk path ++ entries)
        | .error e => .error e

/-- The location of the file that is named alone, if one is. -/
def loneFile? (fs : FileSystem) (inputs : Inputs) : Option (List FileName) :=
  match inputs.paths with
  | [path] =>
    match fs.resolve path with
    | .ok target => if target.node.isFile then some target.location else none
    | .error _ => none
  | _ => none

/-- The files that the inputs of a command name. -/
def collect (fs : FileSystem) (inputs : Inputs) : Except CollectError Collection :=
  match scan fs inputs inputs.paths with
  | .error e => .error e
  | .ok entries =>
    let files := entries.filter (·.isFile)
    let found := (files.filter (isSchemaFile inputs)).map fun e => Files.absolutePath e.location
    let skipped := (files.filter fun e => !isSchemaFile inputs e).length
    if found.isEmpty then
      match loneFile? fs inputs with
      -- the file that is named alone was among those left out
      | some location =>
        match Files.canonicalPath location with
        | .ok path => .ok ⟨[path], skipped - 1⟩
        | .error cause => .error (.unlocatable cause)
      | none => .error (.noFiles inputs.paths)
    else .ok ⟨found, skipped⟩

/-! ## What is reported -/

/-- What is reported about an entry. -/
def entryNote (inputs : Inputs) (e : Entry) : Log.Entry :=
  if !e.isFile then .trace ("Skipping non-file: " ++ Files.shown e.path ++ ".")
  else if isSchemaPath inputs e.path then
    .trace ("Found GraphQL file at " ++ Files.shown e.path ++ ".")
  else .trace ("Skipping non-graphql file: " ++ Files.shown e.path ++ ".")

/-- The entries that the walk from a path comes by, the one at which it ends included. -/
def reached (inputs : Inputs) (path : Path) : List Entry → List Entry
  | [] => []
  | e :: es =>
    if (obstacle? inputs path e).isSome then [e] else e :: reached inputs path es

/-- What is reported about the entries at and below some paths. -/
def scanLog (fs : FileSystem) (inputs : Inputs) : List Path → Log
  | [] => []
  | path :: rest =>
    match fs.resolve path with
    | .error _ => []
    | .ok target =>
      (reached inputs path (target.walk path)).map (entryNote inputs)
        ++ if (target.walk path).any fun e => (obstacle? inputs path e).isSome then []
          else scanLog fs inputs rest

/-- What is reported about a file that has none of the extensions asked for. -/
def loneFileNote (inputs : Inputs) (path : Path) : Log.Entry :=
  .warn ("Proceeding to load " ++ Files.shown path
    ++ " even though it doesn't match any of the --graphql-file-exts ("
    ++ ", ".intercalate (inputs.extensions.map fun e => "`" ++ e ++ "`") ++ ").")

/-- Whether an entry among those of the inputs is a schema file. -/
def findsAny (fs : FileSystem) (inputs : Inputs) : Bool :=
  match scan fs inputs inputs.paths with
  | .ok entries => entries.any (isSchemaFile inputs)
  | .error _ => true

/-- What is reported while files are collected. -/
def collectLog (fs : FileSystem) (inputs : Inputs) : Log :=
  .debug ("Scanning " ++ toString inputs.paths.length ++ " input paths...")
    :: (scanLog fs inputs inputs.paths
      ++ (if findsAny fs inputs then []
        else (loneFile? fs inputs).toList.filterMap fun location =>
          (Files.canonicalPath location).toOption.map (loneFileNote inputs))
      ++ match collect fs inputs with
        | .ok c => [.debug ("Found " ++ toString c.paths.length ++ " GraphQL files to load.")]
        | .error _ => [])

end SchemaCatalog.Command

/-
# Arguments of the command line

The first word that is no option names what is to be done; options before it
concern every command, options behind it that command alone.
-/
import SchemaCatalog.Files.Path

namespace SchemaCatalog.Command

/-! ## What is asked for -/

/-- The files that a command works on. -/
structure Inputs where
  /-- The extensions that mark a schema file within a directory. -/
  extensions : List String
  /-- Files and directories. -/
  paths : List Files.Path
  deriving DecidableEq

/-- A command. -/
inductive Action where
  /-- Writes the catalog, in one line or over several. -/
  | describe (isCompact : Bool) (inputs : Inputs)
  /-- Tells whether there is a catalog, and how large it is. -/
  | validate (inputs : Inputs)
  deriving DecidableEq

/-- What the arguments ask for. -/
inductive Request where
  /-- No command is named. -/
  | nothing (isVerbose : Bool)
  | run (isVerbose : Bool) (action : Action)
  deriving DecidableEq

/-- Why no command is run. -/
inductive Usage where
  | displayHelp
  | displayVersion
  | unknownArgument
  | invalidSubcommand
  | missingRequiredArgument
  | argumentConflict
  | invalidValue
  | tooManyValues
  deriving DecidableEq

/-- The status that the program ends with when no command is run. -/
def Usage.exitCode : Usage → Nat
  | displayHelp | displayVersion => 0
  | _ => 2

/-! ## Words -/

/-- The extensions that mark a schema file if none are given. -/
def defaultExtensions : List String := ["graphql", "graphqls", "gql"]

/-- How a word is to be understood. -/
inductive Word where
  /-- Two dashes alone: what follows are no options. -/
  | escape
  /-- An option by name, with the value attached to it. -/
  | long (name : String) (value : Option String)
  /-- Options by letter. -/
  | short (letters : List Char)
  | plain (text : String)

/-- How a word is to be understood where options may stand. -/
def Word.ofText (text : String) : Word :=
  match text.toList with
  | ['-', '-'] => escape
  | '-' :: '-' :: cs =>
    let name := String.ofList (cs.takeWhile (· != '='))
    match cs.dropWhile (· != '=') with
    | _ :: value => long name (some (String.ofList value))
    | [] => long name none
  | '-' :: c :: cs => short (c :: cs)
  | _ => plain text

/-- The extensions that a value lists. -/
def extensionsOf (value : String) : List String :=
  (Text.pieces ',' value.toList).map String.ofList

/-! ## Arguments of a command -/

/-- What is known after some arguments of a command. -/
structure Reading where
  isCompact : Bool
  extensions : Option (List String)
  paths : List String
  /-- Whether the option for extensions still lacks its value. -/
  lacksValue : Bool

namespace Reading

/-- Nothing is known before the first argument. -/
def start : Reading := ⟨false, none, [], false⟩

/-- Whether what has been given so far holds up: no value is missing, and no path
is empty. -/
def check (r : Reading) : Except Usage Unit :=
  if r.lacksValue || r.paths.contains "" then .error .invalidValue else .ok ()

/-- Adds the extensions that a value lists. -/
def addExtensions (r : Reading) (value : String) : Reading :=
  { r with extensions := some (r.extensions.getD [] ++ extensionsOf value), lacksValue := false }

/-- One more path. -/
def addPath (r : Reading) (path : String) : Except Usage Reading :=
  if r.lacksValue then .error .invalidValue else .ok { r with paths := r.paths ++ [path] }

/-- One more word that is no option. -/
def addPlain (r : Reading) (text : String) : Except Usage Reading :=
  if r.lacksValue then .ok (r.addExtensions text) else r.addPath text

/-- An option that takes no value. -/
def addFlag (r : Reading) (value : Option String) (next : Except Usage Reading) :
    Except Usage Reading :=
  match value with
  | some _ => .error .tooManyValues
  | none =>
    match r.check with
    | .error e => .error e
    | .ok () => next

/-- One more option by name; whether the catalog can be written in one line. -/
def addLong (allowsCompact : Bool) (r : Reading) (name : String) (value : Option String) :
    Except Usage Reading :=
  if name = "graphql-file-exts" then
    match r.check with
    | .error e => .error e
    | .ok () =>
      match value with
      | some v => .ok (r.addExtensions v)
      | none => .ok { r with lacksValue := true }
  else if name = "help" then r.addFlag value (.error .displayHelp)
  else if name = "compact" && allowsCompact then
    r.addFlag value
      (if r.isCompact then .error .argumentConflict else .ok { r with isCompact := true })
  else .error .unknownArgument

/-- Options by letter. -/
def addShort (r : Reading) (letters : List Char) : Except Usage Reading :=
  if letters.head? == some 'h' then r.addFlag none (.error .displayHelp)
  else .error .unknownArgument

/-- What all arguments of a command tell. -/
def finish (r : Reading) : Except Usage (Bool × Inputs) :=
  match r.check with
  | .error e => .error e
  | .ok () =>
    if r.paths.isEmpty then .error .missingRequiredArgument
    else .ok (r.isCompact, ⟨r.extensions.getD defaultExtensions, r.paths.map Text.encode⟩)

/-- Reads the arguments of a command; whether options may still come. -/
def readFrom (allowsCompact : Bool) : (mayHaveOptions : Bool) → Reading → List String →
    Except Usage (Bool × Inputs)
  | _, r, [] => r.finish
  | false, r, text :: rest =>
    match r.addPath text with
    | .ok r' => readFrom allowsCompact false r' rest
    | .error e => .error e
  | true, r, text :: rest =>
    let next : Except Usage (Bool × Reading) :=
      match Word.ofText text with
      | .escape => .ok (false, r)
      | .long name value => (r.addLong allowsCompact name value).map fun r' => (true, r')
      | .short letters => (r.addShort letters).map fun r' => (true, r')
      | .plain text => (r.addPlain text).map fun r' => (true, r')
    match next with
    | .ok (mayHaveOptions, r') => readFrom allowsCompact mayHaveOptions r' rest
    | .error e => .error e

end Reading

/-! ## All arguments -/

/-- The names of commands. -/
def commandNames : List String := ["describe", "validate", "help"]

/-- The answer to a call for help, which may name a command. -/
def helpOn : List String → Usage
  | [] => .displayHelp
  | [name] => if name ∈ commandNames then .displayHelp else .invalidSubcommand
  | _ => .invalidSubcommand

/-- Reads options by letter that stand before the command. -/
def addLetters : (isVerbose : Bool) → List Char → Except Usage Bool
  | isVerbose, [] => .ok isVerbose
  | isVerbose, c :: cs =>
    if c == 'v' then if isVerbose then .error .argumentConflict else addLetters true cs
    else if c == 'h' then .error .displayHelp
    else if c == 'V' then .error .displayVersion
    else .error .unknownArgument

/-- Reads an option by name that stands before the command. -/
def addName (isVerbose : Bool) (name : String) (value : Option String) : Except Usage Bool :=
  if name ∈ ["verbose", "help", "version"] then
    if value.isSome then .error .tooManyValues
    else if name = "help" then .error .displayHelp
    else if name = "version" then .error .displayVersion
    else if isVerbose then .error .argumentConflict
    else .ok true
  else .error .unknownArgument

/-- Reads a command with its arguments. -/
def readCommand (isVerbose : Bool) (name : String) (rest : List String) : Except Usage Request :=
  if name = "describe" then
    (Reading.readFrom true true .start rest).map fun r => .run isVerbose (.describe r.1 r.2)
  else if name = "validate" then
    (Reading.readFrom false true .start rest).map fun r => .run isVerbose (.validate r.2)
  else if name = "help" then .error (helpOn rest)
  else .error .invalidSubcommand

/-- Reads arguments from the first one on. -/
def readArguments : (isVerbose : Bool) → List String → Except Usage Request
  | isVerbose, [] => .ok (.nothing isVerbose)
  | isVerbose, text :: rest =>
    match Word.ofText text with
    | .escape =>
      match rest with
      | [] => .ok (.nothing isVerbose)
      -- behind the dashes no command is looked for
      | name :: _ =>
        .error (if name ∈ commandNames then .unknownArgument else .invalidSubcommand)
    | .long name value =>
      match addName isVerbose name value with
      | .ok v => readArguments v rest
      | .error e => .error e
    | .short letters =>
      match addLetters isVerbose letters with
      | .ok v => readArguments v rest
      | .error e => .error e
    | .plain name => readCommand isVerbose name rest

/-- What the arguments of the program ask for. -/
def Request.ofArguments (args : List String) : Except Usage Request := readArguments false args

end SchemaCatalog.Command

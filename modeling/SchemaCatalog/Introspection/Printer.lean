/-
# Writing a schema

A schema from an introspection query is written as a document.  Types and
directives that every schema has are left out.  Members are indented line by
line, and so are the lines of their descriptions.
-/
import SchemaCatalog.Introspection.Schema

namespace SchemaCatalog.Introspection

/-! ## Lines -/

/-- A text of which each line that is not empty is indented by two spaces; whether
the text begins at the start of a line. -/
def indentFrom : (atStart : Bool) → List Char → List Char
  | _, [] => []
  | atStart, c :: cs =>
    if c == '\n' then c :: indentFrom true cs
    else if atStart then ' ' :: ' ' :: c :: indentFrom false cs
    else c :: indentFrom false cs

/-- A text of which each line that is not empty is indented by two spaces. -/
def indent (s : String) : String := String.ofList (indentFrom true s.toList)

/-- The number of bytes that texts take together. -/
def byteSizes (ss : List String) : Nat := ss.foldr (fun s n => s.utf8ByteSize + n) 0

/-- The number of bytes above which a list is broken into lines. -/
def lineLimit : Nat := 80

/-! ## Parts -/

/-- A description on lines of its own. -/
def writeDescription : Option String → String
  | some s => "\"\"\"\n" ++ s ++ "\n\"\"\"\n"
  | none => ""

/-- A character between two quotes. -/
def escapeChar (c : Char) : List Char :=
  match c with
  | '"' => ['\\', '"']
  | '\\' => ['\\', '\\']
  | '\n' => ['\\', 'n']
  | '\r' => ['\\', 'r']
  | '\t' => ['\\', 't']
  | c => [c]

/-- A deprecation. -/
def Deprecation.write : Deprecation → String
  | no => ""
  | yes none => " @deprecated"
  | yes (some reason) =>
    " @deprecated(reason: \"" ++ String.ofList (reason.toList.flatMap escapeChar) ++ "\")"

/-- An argument, or a field of an input object. -/
def Input.write (v : Input) : String :=
  writeDescription v.description ++ v.name ++ ": " ++ v.type.text
    ++ (match v.defaultValue with
      | some d => " = " ++ d
      | none => "")
    ++ v.deprecation.write

/-- Whether arguments are broken into lines; `owner` is the text that they share a
line with. -/
def areBroken (owner : String) (args : List Input) : Bool :=
  -- neither default values nor wrappers count for the length
  args.any (fun a => a.description.isSome)
    || lineLimit < byteSizes (args.map (·.name)) + byteSizes (args.map (·.type.innermost))
      + owner.utf8ByteSize

/-- Arguments between parentheses, if there are any. -/
def writeArgs (owner : String) (args : List Input) : String :=
  if args.isEmpty then ""
  else if areBroken owner args then
    "(\n" ++ indent ("\n".intercalate (args.map Input.write)) ++ "\n)"
  else
    "(" ++ ", ".intercalate (args.map Input.write) ++ ")"

/-- A field. -/
def Field.write (f : Field) : String :=
  writeDescription f.description ++ f.name ++ writeArgs f.type.innermost f.args ++ ": "
    ++ f.type.text ++ f.deprecation.write ++ "\n"

/-- A value of an enum. -/
def EnumValue.write (v : EnumValue) : String :=
  writeDescription v.description ++ v.name ++ v.deprecation.write ++ "\n"

/-- Members between braces. -/
def block (members : List String) : String :=
  " \x7b\n" ++ indent (String.join members) ++ "\x7d\n"

/-! ## Types -/

/-- The interfaces that a type implements, if there are any. -/
def writeInterfaces (is : List String) : String :=
  if is.isEmpty then "" else " implements " ++ " & ".intercalate is

/-- An object or an interface, from its keyword on. -/
def writeFields (keyword name : String) (is : List String) (fs : List Field) : String :=
  keyword ++ " " ++ name ++ writeInterfaces is
    ++ if fs.isEmpty then "\n" else block (fs.map Field.write) ++ "\n"

/-- The members of a union. -/
def writeMembers (ms : List String) : String :=
  if lineLimit < byteSizes ms then "\n    " ++ "\n  | ".intercalate ms
  else if ms.isEmpty then ""
  else " " ++ " | ".intercalate ms

/-- A type, from its keyword on. -/
def Content.write (name : String) : Content → String
  | scalar => "scalar " ++ name ++ "\n\n"
  | object is fs => writeFields "type" name is fs
  | interface is fs => writeFields "interface" name is fs
  | union ms => "union " ++ name ++ " =" ++ writeMembers ms ++ "\n\n"
  | enum vs =>
    -- no empty line follows an enum without values
    if vs.isEmpty then "enum " ++ name ++ "\n"
    else "enum " ++ name ++ block (vs.map EnumValue.write) ++ "\n"
  | inputObject isOneOf fs =>
    "input " ++ name ++ (if isOneOf then " @oneOf" else "")
      ++ (if fs.isEmpty then "" else block (fs.map fun f => f.write ++ "\n")) ++ "\n"

/-- The scalars that every schema has. -/
def builtInScalars : List String := ["String", "Boolean", "Int", "ID", "Float"]

/-- Whether a type is one that every schema has. -/
def TypeDef.isBuiltIn (t : TypeDef) : Bool :=
  ['_', '_'].isPrefixOf t.name.toList ||
    match t.content with
    | .scalar => t.name ∈ builtInScalars
    | _ => false

/-- A type. -/
def TypeDef.write (t : TypeDef) : String :=
  writeDescription t.description ++ t.content.write t.name

/-! ## Directives and operations -/

/-- The directives that every schema has. -/
def builtInDirectives : List String := ["skip", "include", "deprecated", "specifiedBy"]

/-- A directive. -/
def Directive.write (d : Directive) : String :=
  writeDescription d.description ++ "directive @" ++ d.name ++ writeArgs d.name d.args
    ++ (if d.isRepeatable then " repeatable" else "") ++ " on " ++ " | ".intercalate d.locations
    ++ "\n\n"

/-- Whether the operations start from the types that have their names. -/
def Schema.hasUsualRoots (s : Schema) : Bool :=
  s.query = "Query" && s.mutation.all (· = "Mutation")
    && s.subscription.all (· = "Subscription")

/-- An entry of the schema definition, if the operation has a type. -/
def writeRoot (o : Operation) : Option String → String
  | some t => o.text ++ ": " ++ t ++ "\n"
  | none => ""

/-- The definition of the schema, if it cannot be told from the names of types. -/
def Schema.writeRoots (s : Schema) : String :=
  if s.hasUsualRoots then ""
  else
    "schema" ++ block [writeRoot .query (some s.query), writeRoot .mutation s.mutation,
      writeRoot .subscription s.subscription]

/-- A schema as a document. -/
def Schema.write (s : Schema) : String :=
  s.writeRoots
    ++ String.join ((s.types.filter fun t => !t.isBuiltIn).map TypeDef.write)
    ++ String.join ((s.directives.filter fun d => d.name ∉ builtInDirectives).map Directive.write)

end SchemaCatalog.Introspection

/-
# Writing fragments

Definitions are written one after the other with an empty line between them, the
members of a type on lines of their own.  A text of several lines is written as a
block string, indented as far as the line that it belongs to.
-/
import SchemaCatalog.Fragment.Basic
import SchemaCatalog.Number.Shortest
import SchemaCatalog.Text.Blank
import SchemaCatalog.Text.Lines

namespace SchemaCatalog.Fragment

/-! ## Strings -/

/-- Spaces before a line. -/
def spaces (n : Nat) : List Char := List.replicate n ' '

/-- The characters that a string can hold as they are. -/
def isPlain (c : Char) : Bool := 0x20 ≤ c.toNat && c.toNat ≤ 0xFFFF

/-- A number with at least four digits. -/
def fourDigits (n : Nat) : List Char :=
  -- in base ten, although an escape by number is read in base sixteen
  let digits := Nat.toDigits 10 n
  List.replicate (4 - digits.length) '0' ++ digits

/-- A character between two quotes. -/
def escapeChar (c : Char) : List Char :=
  match c with
  | '\r' => ['\\', 'r']
  | '\n' => ['\\', 'n']
  | '\t' => ['\\', 't']
  | '"' => ['\\', '"']
  | '\\' => ['\\', '\\']
  | c => if isPlain c then [c] else '\\' :: 'u' :: fourDigits c.toNat

/-- Whether a text is written as a block: it has several lines, and each of its
characters can stand in a block as it is. -/
def isBlockText (cs : List Char) : Bool :=
  cs.contains '\n' && cs.all fun c => c == '\r' || c == '\n' || c == '\t' || isPlain c

/-- A line of a block string. -/
def blockLine (indent : Nat) (line : List Char) : List Char :=
  if Text.isAllBlank line then ['\n']
  else spaces (indent + 2) ++ Text.escapeTripleQuotes line ++ ['\n']

/-- A text with its quotes, in a line that is indented so far. -/
def quotedChars (indent : Nat) (cs : List Char) : List Char :=
  if isBlockText cs then
    "\"\"\"\n".toList ++ (Text.feedLines cs).flatMap (blockLine indent)
      ++ spaces indent ++ "\"\"\"".toList
  else
    '"' :: (cs.flatMap escapeChar ++ ['"'])

/-- A text with its quotes, in a line that is indented so far. -/
def quoted (indent : Nat) (s : String) : String := String.ofList (quotedChars indent s.toList)

/-! ## Values and directives -/

/-- Texts with another text between them. -/
def joined (between : String) (ss : List String) : String := between.intercalate ss

mutual

/-- A value. -/
def Value.write (indent : Nat) : Value → String
  | .variable n => "$" ++ n.text
  | .int i => toString i
  | .float b => b.text
  | .string s => quoted indent s
  | .word n => n.text
  | .list vs => "[" ++ joined ", " (Value.writeItems indent vs) ++ "]"
  | .object fs => "\x7b" ++ joined ", " (Value.writeFields indent fs) ++ "\x7d"

/-- The items of a list. -/
def Value.writeItems (indent : Nat) : List Value → List String
  | [] => []
  | v :: vs => v.write indent :: Value.writeItems indent vs

/-- The fields of an object. -/
def Value.writeFields (indent : Nat) : List (Name × Value) → List String
  | [] => []
  | (n, v) :: fs => (n.text ++ ": " ++ v.write indent) :: Value.writeFields indent fs

end

/-- A directive with its arguments. -/
def Directive.write (indent : Nat) (d : Directive) : String :=
  " @" ++ d.name.text ++
    if d.arguments.isEmpty then ""
    else "(" ++ joined ", " (Value.writeFields indent d.arguments) ++ ")"

/-- Directives, each after a space. -/
def writeDirectives (indent : Nat) (ds : List Directive) : String :=
  String.join (ds.map (Directive.write indent))

/-! ## Members of types -/

/-- A description in front of what it describes. -/
def inlineDescription (indent : Nat) (d : Option String) : String :=
  match d with
  | some s => quoted indent s ++ " "
  | none => ""

/-- The start of a line that is indented so far. -/
def margin (indent : Nat) : String := String.ofList (spaces indent)

/-- A description on lines of its own. -/
def ownDescription (indent : Nat) (d : Option String) : String :=
  match d with
  | some s => margin indent ++ quoted indent s ++ "\n"
  | none => ""

/-- A default value after its sign. -/
def writeDefault (indent : Nat) (d : Option Value) : String :=
  match d with
  | some v => " = " ++ v.write indent
  | none => ""

/-- An argument, or a field of an input object. -/
def InputValue.write (indent : Nat) (v : InputValue) : String :=
  inlineDescription indent v.description ++ v.name.text ++ ": " ++ v.type.text
    ++ writeDefault indent v.default ++ writeDirectives indent v.directives

/-- Arguments between parentheses, if there are any. -/
def writeArguments (indent : Nat) (vs : List InputValue) : String :=
  if vs.isEmpty then "" else "(" ++ joined ", " (vs.map (InputValue.write indent)) ++ ")"

/-- A field, on lines of its own. -/
def Field.write (indent : Nat) (f : Field) : String :=
  ownDescription indent f.description ++ margin indent ++ f.name.text
    ++ writeArguments indent f.arguments ++ ": " ++ f.type.text
    ++ writeDirectives indent f.directives ++ "\n"

/-- A field of an input object, on a line of its own. -/
def writeInputField (indent : Nat) (v : InputValue) : String :=
  margin indent ++ v.write indent ++ "\n"

/-- A value of an enum, on a line of its own. -/
def EnumValue.write (indent : Nat) (v : EnumValue) : String :=
  margin indent ++ inlineDescription indent v.description ++ v.name.text
    ++ writeDirectives indent v.directives ++ "\n"

/-- Lines between braces, if there are any. -/
def writeBlock (lines : List String) : String :=
  if lines.isEmpty then "\n" else " \x7b\n" ++ String.join lines ++ "\x7d\n"

/-! ## Definitions -/

/-- How far the members of a type are indented. -/
def memberIndent : Nat := 2

/-- The interfaces that a type implements, if there are any. -/
def writeInterfaces (is : List Name) : String :=
  if is.isEmpty then "" else " implements " ++ joined " & " (is.map Name.text)

/-- The definition of a type or an addition to it, from its keyword on. -/
def writeType (n : Name) (ds : List Directive) (c : Content) : String :=
  let head := c.shape.keyword ++ " " ++ n.text
  let dirs := writeDirectives 0 ds
  match c with
  | .enum vs => head ++ dirs ++ writeBlock (vs.map (EnumValue.write memberIndent))
  | .inputObject fs => head ++ dirs ++ writeBlock (fs.map (writeInputField memberIndent))
  | .interface is fs | .object is fs =>
    head ++ writeInterfaces is ++ dirs ++ writeBlock (fs.map (Field.write memberIndent))
  | .scalar => head ++ dirs ++ "\n"
  | .union ms =>
    head ++ dirs ++ (if ms.isEmpty then "" else " = " ++ joined " | " (ms.map Name.text)) ++ "\n"

/-- An entry of the schema definition, if the operation has a type. -/
def writeRoot (s : SchemaDefinition) (o : Operation) : String :=
  match s.root o with
  | some n => margin memberIndent ++ o.text ++ ": " ++ n.text ++ "\n"
  | none => ""

/-- The definition of the schema. -/
def SchemaDefinition.write (s : SchemaDefinition) : String :=
  "schema" ++ writeDirectives 0 s.directives ++ " \x7b\n"
    ++ writeRoot s .query ++ writeRoot s .mutation ++ writeRoot s .subscription ++ "\x7d\n"

/-- The definition of a directive. -/
def DirectiveDefinition.write (d : DirectiveDefinition) : String :=
  ownDescription 0 d.description ++ "directive @" ++ d.name.text ++ writeArguments 0 d.arguments
    ++ (if d.repeatable then " repeatable" else "")
    ++ (if d.locations.isEmpty then ""
      else " on " ++ joined " | " (d.locations.map Name.text)) ++ "\n"

/-- A definition. -/
def Definition.write : Definition → String
  | .schema s => s.write
  | .type t => ownDescription 0 t.description ++ writeType t.name t.directives t.content
  | .extension e => "extend " ++ writeType e.name e.directives e.content
  | .directive d => d.write

/-- Definitions with an empty line between them. -/
def write (ds : List Definition) : String :=
  joined "\n" (ds.map Definition.write)

end SchemaCatalog.Fragment

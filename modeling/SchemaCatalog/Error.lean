/-
# Errors

Everything that can keep a schema from being catalogued.  The first fault ends
the run: there is never a part of a catalog.
-/
import SchemaCatalog.Catalog.Operations
import SchemaCatalog.Document.Outline
import SchemaCatalog.Document.Grammar
import SchemaCatalog.Files.Path
import SchemaCatalog.Fragment.Merge
import SchemaCatalog.Introspection.Decoding
import SchemaCatalog.Introspection.Schema
import SchemaCatalog.Text.Utf8

namespace SchemaCatalog

/-- Why a file cannot be read. -/
inductive Files.ReadError where
  | notAFile (path : Files.Path)
  | undecodable (path : Files.Path) (bytes : List UInt8) (cause : Text.Undecodable)
  deriving DecidableEq

/-- How a file that cannot be read is reported. -/
def Files.ReadError.message : Files.ReadError → String
  | notAFile path => "Schema path " ++ Files.shown path ++ " is not a file"
  | undecodable path _ _ => "Schema file " ++ Files.shown path ++ " is not valid UTF-8"

/-- Whether two files cannot be read for the same reason, their paths leading the same
way. -/
def Files.ReadError.agrees : Files.ReadError → Files.ReadError → Bool
  | notAFile p, notAFile q => Files.sameWay p q
  | undecodable p bs c, undecodable q bs' c' => Files.sameWay p q && bs = bs' && c = c'
  | _, _ => false

/-- A report agrees with itself. -/
@[simp] theorem Files.ReadError.agrees_self (e : Files.ReadError) : e.agrees e = true := by
  cases e <;> simp [agrees]

/-- Why a schema cannot be catalogued. -/
inductive Error where
  | reading (cause : Files.ReadError)
  | merging (cause : Fragment.MergeError)
  | decoding (cause : Introspection.DecodeError)
  | building (cause : Introspection.BuildError)
  | parsing (cause : Document.SyntaxError)
  | repetition (cause : Document.Repetition)
  | binding (cause : BindingError)
  deriving DecidableEq

/-! ## Messages -/

/-- How a text that is not JSON is reported. -/
def Json.SyntaxError.report (e : Json.SyntaxError) : String :=
  e.fault.message ++ " at line " ++ toString e.place.line ++ " column " ++ toString e.place.column

/-- How an answer that cannot be decoded is reported. -/
def Introspection.DecodeError.message : Introspection.DecodeError → String
  | wrongType found expected => found ++ " where " ++ expected ++ " was expected"
  | missing key => "no member `" ++ key ++ "`"
  | unknown word expected => "`" ++ word ++ "` is not " ++ expected
  | notJson cause => cause.report

/-- How a place in a fragment is reported. -/
def Fragment.Place.message (p : Fragment.Place) : String :=
  toString p.line ++ ":" ++ toString p.column

/-- How a fragment that cannot be read is reported. -/
def Fragment.SyntaxError.report (e : Fragment.SyntaxError) : String :=
  "schema parse error: Parse error at " ++ e.place.message ++ "\n"
    ++ String.join (e.unexpected.map fun x => "Unexpected " ++ x ++ "\n")
    ++ (if e.expected.isEmpty then "" else "Expected " ++ ", ".intercalate e.expected ++ "\n")

/-- How fragments that cannot be merged are reported. -/
def Fragment.MergeError.message : Fragment.MergeError → String
  | unreadable index cause =>
    "Error parsing schema fragment #" ++ toString index ++ ": " ++ cause.report
  | conflict c => c.message

/-- How a fault of a document is reported. -/
def Document.SyntaxError.report (e : Document.SyntaxError) : String :=
  "Syntax Error: " ++ e.message ++ " (at byte " ++ toString e.offset ++ ")"

namespace Error

/-- How an error is reported. -/
def message : Error → String
  | reading cause =>
    "Failure while trying to read a schema file from disk: " ++ cause.message
  | merging cause => cause.message
  | decoding cause => "Failed to decode introspection result: " ++ cause.message
  | building cause => "Failed to build a schema from introspection result: " ++ cause.message
  | parsing cause => cause.report
  | repetition cause => cause.message
  | binding cause => cause.message

/-- Whether two errors tell the same. -/
def agrees : Error → Error → Bool
  | reading e, reading f => e.agrees f
  | e, f => e = f

/-- An error tells the same as itself. -/
@[simp] theorem agrees_self (e : Error) : e.agrees e = true := by
  cases e <;> simp [agrees]

/-- The reports of what lies behind an error, the nearest first. -/
def causes : Error → List String
  | reading (.undecodable path bytes cause) =>
    [Files.ReadError.message (.undecodable path bytes cause), cause.message]
  | reading cause => [cause.message]
  | _ => []

end Error

end SchemaCatalog

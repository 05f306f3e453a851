/-
# Writing JSON

A value can be written in one line without any space, or over several lines with
two spaces of indentation for each level.
-/
import SchemaCatalog.Json.Basic
import SchemaCatalog.Text.CodePoint

namespace SchemaCatalog.Json

open Text (hexDigit)

/-! ## Strings -/

/-- A character inside a string: a quote, a backslash and the control characters
are escaped. -/
def escapeChar (c : Char) : List Char :=
  match c with
  | '"' => ['\\', '"']
  | '\\' => ['\\', '\\']
  | '\x08' => ['\\', 'b']
  | '\t' => ['\\', 't']
  | '\n' => ['\\', 'n']
  | '\x0c' => ['\\', 'f']
  | '\r' => ['\\', 'r']
  | c =>
    if c.toNat < 0x20 then
      ['\\', 'u', '0', '0', hexDigit (c.toNat / 16), hexDigit (c.toNat % 16)]
    else [c]

/-- A string with its quotes. -/
def quoted (s : String) : List Char :=
  '"' :: (s.toList.flatMap escapeChar ++ ['"'])

/-! ## Values in one line -/

mutual

/-- A value in one line. -/
def compactChars : Json → List Char
  | null => "null".toList
  | bool b => (if b then "true" else "false").toList
  | number text => text.toList
  | string s => quoted s
  | array items => '[' :: (compactItems items ++ [']'])
  | object members => '{' :: (compactMembers members ++ ['}'])

/-- The items of an array in one line. -/
def compactItems : List Json → List Char
  | [] => []
  | [v] => compactChars v
  | v :: vs => compactChars v ++ ',' :: compactItems vs

/-- The members of an object in one line. -/
def compactMembers : List (String × Json) → List Char
  | [] => []
  | [(k, v)] => quoted k ++ ':' :: compactChars v
  | (k, v) :: ms => quoted k ++ ':' :: (compactChars v ++ ',' :: compactMembers ms)

end

/-! ## Values over several lines -/

/-- The start of a line at a level. -/
def newLine (level : Nat) : List Char := '\n' :: List.replicate (2 * level) ' '

mutual

/-- A value over several lines, its first line being at a level. -/
def prettyChars (level : Nat) : Json → List Char
  | null => "null".toList
  | bool b => (if b then "true" else "false").toList
  | number text => text.toList
  | string s => quoted s
  | array [] => ['[', ']']
  | array (v :: vs) =>
    '[' :: (prettyItems (level + 1) (v :: vs) ++ newLine level ++ [']'])
  | object [] => ['{', '}']
  | object (m :: ms) =>
    '{' :: (prettyMembers (level + 1) (m :: ms) ++ newLine level ++ ['}'])

/-- The items of an array, each on lines of its own. -/
def prettyItems (level : Nat) : List Json → List Char
  | [] => []
  | [v] => newLine level ++ prettyChars level v
  | v :: vs => newLine level ++ (prettyChars level v ++ ',' :: prettyItems level vs)

/-- The members of an object, each on lines of its own. -/
def prettyMembers (level : Nat) : List (String × Json) → List Char
  | [] => []
  | [(k, v)] => newLine level ++ (quoted k ++ ':' :: ' ' :: prettyChars level v)
  | (k, v) :: ms =>
    newLine level ++
      (quoted k ++ ':' :: ' ' :: (prettyChars level v ++ ',' :: prettyMembers level ms))

end

/-- A value in one line. -/
def compact (v : Json) : String := String.ofList (compactChars v)

/-- A value over several lines. -/
def pretty (v : Json) : String := String.ofList (prettyChars 0 v)

end SchemaCatalog.Json

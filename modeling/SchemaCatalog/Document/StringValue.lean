/-
# What a string of a document says

A string token is kept as it is written.  Here is what it stands for: a quoted
string has its escapes replaced, a block string loses the indentation that its
lines share and the blank lines around it.
-/
import SchemaCatalog.Document.Scanner
import SchemaCatalog.Text.Lines

namespace SchemaCatalog.Document

open Text (hexDigit? isLeadingHalf joinHalves inner)

/-! ## Quoted strings -/

/-- Where the reader of an escape stands.  `lead` is the first half of a pair
whose second half is being read. -/
inductive Unescape where
  | plain
  | escape (lead : Option Nat)
  | unicode (lead : Option Nat)
  | digits (lead : Option Nat) (count value : Nat)
  | braced (value : Nat)
  | half (lead : Nat)

namespace Unescape

/-- What a character stands for after a backslash. -/
def ofEscape (c : Char) : Char :=
  match c with
  | 'b' => '\x08'
  | 'f' => '\x0c'
  | 'n' => '\n'
  | 'r' => '\r'
  | 't' => '\t'
  | c => c

/-- The state and the character that a complete unit leads to. -/
def ofUnit (lead : Option Nat) (value : Nat) : Unescape × List Char :=
  match lead with
  | some first => (plain, [joinHalves first value])
  | none => if isLeadingHalf value then (half value, []) else (plain, [Char.ofNat value])

/-- One more character, and what it adds to the value. -/
def next (st : Unescape) (c : Char) : Unescape × List Char :=
  match st with
  | plain => if c == '\\' then (escape none, []) else (plain, [c])
  | escape lead => if c == 'u' then (unicode lead, []) else (plain, [ofEscape c])
  | unicode lead =>
    if c == '{' then (braced 0, []) else (digits lead 1 ((hexDigit? c).getD 0), [])
  | digits lead count value =>
    let value := 16 * value + (hexDigit? c).getD 0
    if count + 1 == 4 then ofUnit lead value else (digits lead (count + 1) value, [])
  | braced value =>
    if c == '}' then (plain, [Char.ofNat value])
    else (braced (16 * value + (hexDigit? c).getD 0), [])
  | half lead => (escape (some lead), [])

/-- What the rest of a quoted string stands for. -/
def run (st : Unescape) : List Char → List Char
  | [] => []
  | c :: cs => (st.next c).2 ++ run (st.next c).1 cs

end Unescape

/-! ## Block strings -/

/-- The characters that indent a line. -/
def isIndent (c : Char) : Bool := c == ' ' || c == '\t'

/-- A line that holds nothing but indentation. -/
def isBlankLine (line : List Char) : Bool := line.all isIndent

/-- The length of a line's indentation. -/
def indentOf (line : List Char) : Nat := (line.takeWhile isIndent).length

/-- The indentation that all lines share, blank ones aside. -/
def commonIndent (lines : List (List Char)) : Nat :=
  ((lines.filter fun l => !isBlankLine l).map indentOf).min?.getD 0

/-- What the text between triple quotes stands for. -/
def blockValue (raw : List Char) : List Char :=
  let lines := Text.splitLines raw
  let indent := commonIndent (lines.drop 1)
  let shifted := lines.take 1 ++ (lines.drop 1).map (List.drop indent)
  Text.joinLines ((Text.trimLines isBlankLine shifted).map Text.unescapeTripleQuotes)

/-! ## Strings -/

/-- What a string token stands for. -/
def stringValue (text : String) : String :=
  let cs := text.toList
  if "\"\"\"".toList.isPrefixOf cs then String.ofList (blockValue (inner 3 cs))
  else String.ofList (Unescape.plain.run (inner 1 cs))

end SchemaCatalog.Document

/-
# What a string of a fragment says

Escapes and indentation follow rules of their own here: a `\b` is the character
U+0010, an escape by number has exactly four digits and cannot be half of a pair,
and any white space of Unicode indents a line of a block string.  Indentation is
counted in bytes, so what lines share may end within a character of one of them;
then reading the string breaks off, unless that is a blank line that is dropped.
-/
import SchemaCatalog.Attempt
import SchemaCatalog.Text.Blank
import SchemaCatalog.Text.CodePoint
import SchemaCatalog.Text.Lines

namespace SchemaCatalog.Fragment

open Text (hexFrom? isScalar byteSize inner)

/-- Why a string stands for nothing. -/
inductive StringFault where
  /-- A backslash stands before a character that it does not go with. -/
  | unknownEscape (c : Char)
  /-- The string ends before the four digits of an escape by number. -/
  | cutEscape (digits : List Char)
  /-- There is no character of that number. -/
  | noCharacter (digits : List Char)
  deriving DecidableEq

/-! ## Quoted strings -/

/-- The value of a hexadecimal number, which may have a plus before its digits. -/
def hexNumber? (cs : List Char) : Option Nat :=
  match cs with
  | '+' :: ds => hexFrom? 0 ds
  | ds => hexFrom? 0 ds

/-- The character that a number stands for by itself. -/
def scalar? (n : Nat) : Option Char :=
  if isScalar n then some (Char.ofNat n) else none

/-- The character that an escape of one letter stands for. -/
def simpleEscape? (c : Char) : Option Char :=
  match c with
  | '"' => some '"'
  | '\\' => some '\\'
  | '/' => some '/'
  | 'b' => some '\x10'
  | 'f' => some '\x0c'
  | 'n' => some '\n'
  | 'r' => some '\r'
  | 't' => some '\t'
  | _ => none

/-- The character that an escape with four digits stands for. -/
def numberedEscape? (digits : List Char) : Option Char := (hexNumber? digits).bind scalar?

/-- Puts a character in front of what was understood. -/
def consValue (c : Char) (r : Except StringFault (List Char)) : Except StringFault (List Char) :=
  match r with
  | .ok cs => .ok (c :: cs)
  | .error e => .error e

/-- What the text between two quotes stands for. -/
def unescape : List Char → Except StringFault (List Char)
  | [] => .ok []
  | '\\' :: 'u' :: a :: b :: c :: d :: cs =>
    match numberedEscape? [a, b, c, d] with
    | some x => consValue x (unescape cs)
    | none => .error (.noCharacter [a, b, c, d])
  | '\\' :: 'u' :: cs => .error (.cutEscape cs)
  | '\\' :: e :: cs =>
    match simpleEscape? e with
    | some x => consValue x (unescape cs)
    | none => .error (.unknownEscape e)
  | c :: cs => if c = '\\' then .error (.cutEscape []) else consValue c (unescape cs)

/-! ## Block strings -/

/-- The number of bytes that a line is indented by. -/
def indentOf (line : List Char) : Nat :=
  byteSize (line.takeWhile Text.isBlank)

/-- A line without its first bytes, unless a character lies across the cut. -/
def dropBytes? : Nat → List Char → Option (List Char)
  | 0, cs => some cs
  | _ + 1, [] => none
  | n + 1, c :: cs => if c.utf8Size ≤ n + 1 then dropBytes? (n + 1 - c.utf8Size) cs else none

/-- A line without the indentation that it shares with others, if it is that long. -/
def shiftLine? (indent : Nat) (line : List Char) : Option (List Char) :=
  if byteSize line < indent then some line else dropBytes? indent line

/-- The indentation that all lines share, blank ones aside. -/
def commonIndent (lines : List (List Char)) : Nat :=
  ((lines.filter fun l => !Text.isAllBlank l).map indentOf).min?.getD 0

/-- Lines, each beside the indentation that it is to lose: none for the first, and
what the others share for each of them. -/
def withIndents (lines : List (List Char)) : List (Nat × List Char) :=
  (lines.take 1).map (0, ·) ++ (lines.drop 1).map (commonIndent (lines.drop 1), ·)

/-- What the text between triple quotes stands for, unless a cut tears a line.  Blank
lines at both ends go before any line is cut, so it can only tear a line that stays. -/
def blockValue? (raw : List Char) : Option (List Char) :=
  let kept := Text.trimLines (fun l => Text.isAllBlank l.2) (withIndents (Text.feedLines raw))
  (kept.mapM fun l => shiftLine? l.1 l.2).map fun lines =>
    Text.joinLines (lines.map Text.unescapeTripleQuotes)

/-! ## Strings -/

/-- What a string token stands for.  A line that would be torn breaks it off. -/
def stringValue (text : String) : Attempt StringFault String :=
  let cs := text.toList
  if "\"\"\"".toList.isPrefixOf cs then
    match blockValue? (inner 3 cs) with
    | some value => .ok (String.ofList value)
    | none => .brokenOff
  else .ofExcept ((unescape (inner 1 cs)).map String.ofList)

end SchemaCatalog.Fragment

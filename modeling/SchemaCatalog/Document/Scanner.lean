/-
# Lexemes of a schema document

The scanner for documents as they are catalogued.  Everything that the language
does not have is kept as a flaw with its own message, so that the first fault of
a text can be told by whoever reads the lexemes in order.
-/
import SchemaCatalog.Lexeme.Scanner
import SchemaCatalog.Number.Decimal
import SchemaCatalog.Text.CodePoint

namespace SchemaCatalog.Document

open Text (hexDigit? isLeadingHalf isTrailingHalf isScalar)
open Decimal (isExponentMark)

/-! ## States -/

/-- Where the scanner stands inside a quoted string. -/
inductive Quoted where
  /-- Between two characters. -/
  | plain
  /-- After a backslash. -/
  | escape
  /-- After a backslash and a `u`. -/
  | unicode
  /-- After so many digits of a four-digit escape, and their value. -/
  | digits (count value : Nat)
  /-- Inside braces: whether there was a digit, and the value so far. -/
  | braced (any : Bool) (value : Nat)
  /-- After the first half of a pair. -/
  | half
  /-- After the first half of a pair and a backslash. -/
  | halfEscape
  /-- After so many digits of the second half of a pair, and their value. -/
  | halfDigits (count value : Nat)

/-- Where the scanner stands inside a block string. -/
inductive Block where
  | plain
  /-- After one quote that may begin the end. -/
  | oneQuote
  /-- After two quotes that may begin the end. -/
  | twoQuotes
  /-- After a run of backslashes. -/
  | escape
  /-- After a run of backslashes and one quote. -/
  | escapedOne
  /-- After a run of backslashes and two quotes. -/
  | escapedTwo

/-- Where the scanner stands inside a lexeme. -/
inductive ScanState where
  | blank
  | comment
  | comma
  | mark (m : Mark)
  | name
  | oneDot
  | twoDots
  | minus
  | zero
  | digits
  | point
  | fraction
  | exponent
  | exponentSign
  | exponentDigits
  /-- After the quote that opens a string. -/
  | quote
  /-- After two quotes: an empty string, or the opening of a block. -/
  | emptyString
  /-- Inside a quoted string, with the last problem met in it. -/
  | quoted (q : Quoted) (problem : Option String)
  | block (b : Block)
  /-- After the quote that closes a string. -/
  | closed (problem : Option String)
  /-- After a character that fits nothing. -/
  | flaw (message : String)

/-! ## Messages -/

/-- The message for a character that no lexeme starts with. -/
def unexpectedCharacter (c : Char) : String := "Unexpected character \"" ++ c.toString ++ "\""

/-- The message for a character that cannot stand where it does in a number. -/
def unexpectedInNumber (c : Char) (place : String) : String :=
  "Unexpected character `" ++ c.toString ++ "`" ++ place

def unexpectedLineEnd : String := "unexpected line terminator"
def unexpectedEscape : String := "unexpected escaped character"
def invalidUnicodeEscape : String := "invalid unicode escape sequence"
def incompleteUnicodeEscape : String := "incomplete unicode escape sequence"
def noScalarValue : String := "unicode escape sequence must specify a Unicode scalar value"
def unpairedSurrogate : String := "unpaired surrogate in unicode escape sequence"
def unterminatedString : String := "unterminated string value"

/-! ## Steps -/

/-- White space between lexemes. -/
def isBlank (c : Char) : Bool :=
  c == ' ' || c == '\t' || c == '\n' || c == '\r' || c == '\uFEFF'

/-- The characters that end a comment and may not stand in a quoted string. -/
def isLineEnd (c : Char) : Bool := c == '\n' || c == '\r'

/-- The state after the first character of a lexeme. -/
def ScanState.start (c : Char) : ScanState :=
  if isBlank c then .blank
  else if c == '#' then .comment
  else if c == ',' then .comma
  else if c == '.' then .oneDot
  else if c == '-' then .minus
  else if c == '0' then .zero
  else if c.isDigit then .digits
  else if c == '"' then .quote
  else if isNameStart c then .name
  else match Mark.ofChar? c with
    | some m => .mark m
    | none => .flaw (unexpectedCharacter c)

/-- The state after a four-digit escape is complete. -/
def Quoted.afterUnit (value : Nat) (problem : Option String) : ScanState :=
  if isLeadingHalf value then .quoted .half problem
  else if isTrailingHalf value then .quoted .plain (some unpairedSurrogate)
  else .quoted .plain problem

/-- One more character between two characters of a quoted string. -/
def Quoted.nextPlain (problem : Option String) (c : Char) : ScanState :=
  if c == '"' then .closed problem
  else if c == '\\' then .quoted .escape problem
  else if isLineEnd c then .quoted .plain (some unexpectedLineEnd)
  else .quoted .plain problem

/-- One more character inside a quoted string.  A problem is remembered until
the string is closed, and a later one takes its place. -/
def Quoted.next (q : Quoted) (problem : Option String) (c : Char) : ScanState :=
  match q with
  | plain => Quoted.nextPlain problem c
  | escape =>
    if c == 'u' then .quoted .unicode problem
    else if "\"\\/bfnrt".toList.contains c then .quoted .plain problem
    else .quoted .plain (some unexpectedEscape)
  | unicode =>
    -- from here on a quote ends the string even where a digit is to come
    if c == '{' then .quoted (.braced false 0) problem
    else if c == '"' then .closed (some incompleteUnicodeEscape)
    else match hexDigit? c with
      | some d => .quoted (.digits 1 d) problem
      | none => .quoted .plain (some invalidUnicodeEscape)
  | digits count value =>
    if c == '"' then .closed (some incompleteUnicodeEscape)
    else match hexDigit? c with
      | some d =>
        if count + 1 == 4 then Quoted.afterUnit (16 * value + d) problem
        else .quoted (.digits (count + 1) (16 * value + d)) problem
      | none => .quoted .plain (some invalidUnicodeEscape)
  | braced any value =>
    if c == '"' then .closed (some incompleteUnicodeEscape)
    else if c == '}' then
      if any && isScalar value then .quoted .plain problem
      else .quoted .plain (some noScalarValue)
    else match hexDigit? c with
      | some d => .quoted (.braced true (16 * value + d)) problem
      | none => .quoted .plain (some invalidUnicodeEscape)
  | half =>
    if c == '\\' then .quoted .halfEscape problem
    else if c == '"' then .closed (some unpairedSurrogate)
    else .quoted .plain (some unpairedSurrogate)
  | halfEscape =>
    if c == 'u' then .quoted (.halfDigits 0 0) problem
    else .quoted .plain (some unpairedSurrogate)
  | halfDigits count value =>
    if c == '"' then .closed (some incompleteUnicodeEscape)
    else match hexDigit? c with
      | some d =>
        if count + 1 == 4 then
          -- a unit that is no second half is passed, even if it could be a first one
          if isTrailingHalf (16 * value + d) then .quoted .plain problem
          else .quoted .plain (some unpairedSurrogate)
        else .quoted (.halfDigits (count + 1) (16 * value + d)) problem
      | none => .quoted .plain (some invalidUnicodeEscape)

/-- One more character between two characters of a block string. -/
def Block.nextPlain (c : Char) : ScanState :=
  if c == '"' then .block .oneQuote
  else if c == '\\' then .block .escape
  else .block .plain

/-- One more character inside a block string.  Three quotes end it; after a run
of backslashes up to three quotes belong to it. -/
def Block.next (b : Block) (c : Char) : ScanState :=
  match b with
  | plain => Block.nextPlain c
  | oneQuote => if c == '"' then .block .twoQuotes else Block.nextPlain c
  | twoQuotes => if c == '"' then .closed none else Block.nextPlain c
  | escape =>
    if c == '"' then .block .escapedOne
    else if c == '\\' then .block .escape
    else .block .plain
  | escapedOne => if c == '"' then .block .escapedTwo else Block.nextPlain c
  | escapedTwo => if c == '"' then .block .plain else Block.nextPlain c

/-- What may follow the digits before the point. -/
def ScanState.afterInteger (c : Char) : Option ScanState :=
  if c == '.' then some .point
  else if isExponentMark c then some .exponent
  else if isNameStart c then some (.flaw (unexpectedInNumber c " as integer suffix"))
  else none

/-- What may follow the last digit of a number with a fraction or an exponent. -/
def ScanState.afterFloat (c : Char) : Option ScanState :=
  if c == '.' || isNameStart c then some (.flaw (unexpectedInNumber c " as float suffix"))
  else none

/-- The state after one more character of a lexeme. -/
def ScanState.next (st : ScanState) (c : Char) : Option ScanState :=
  match st with
  | blank => if isBlank c then some .blank else none
  | comment => if isLineEnd c then none else some .comment
  | comma => none
  | mark _ => none
  | name => if isNameContinue c then some .name else none
  | oneDot => if c == '.' then some .twoDots else some (.flaw "Unterminated spread operator")
  | twoDots => if c == '.' then some (.mark .spread) else none
  | minus =>
    if c == '0' then some .zero
    else if c.isDigit then some .digits
    else some (.flaw (unexpectedInNumber c ""))
  | zero =>
    if c.isDigit then some (.flaw "Numbers must not have non-significant leading zeroes")
    else ScanState.afterInteger c
  | digits => if c.isDigit then some .digits else ScanState.afterInteger c
  | point =>
    if c.isDigit then some .fraction
    else some (.flaw (unexpectedInNumber c ", expected fractional digit"))
  | fraction =>
    if c.isDigit then some .fraction
    else if isExponentMark c then some .exponent
    else ScanState.afterFloat c
  | exponent =>
    if c.isDigit then some .exponentDigits
    else if c == '+' || c == '-' then some .exponentSign
    else some (.flaw (unexpectedInNumber c ", expected exponent digit or sign"))
  | exponentSign =>
    if c.isDigit then some .exponentDigits
    else some (.flaw (unexpectedInNumber c ", expected exponent digit"))
  | exponentDigits => if c.isDigit then some .exponentDigits else ScanState.afterFloat c
  | quote =>
    -- the character behind the opening quote is not looked at further: a line may end there
    if c == '"' then some .emptyString
    else if c == '\\' then some (.quoted .escape none)
    else some (.quoted .plain none)
  | emptyString => if c == '"' then some (.block .plain) else none
  | quoted q problem => some (q.next problem c)
  | block b => some (b.next c)
  | closed _ => none
  | flaw _ => none

/-- What a lexeme with a given text is, when it ends in a state. -/
def ScanState.finish (st : ScanState) (text : List Char) : Lexeme.Kind :=
  match st with
  | blank | comment => .blank
  | comma => .comma
  | mark m => .token (.mark m)
  | name =>
    match Name.ofText? (String.ofList text) with
    | some n => .token (.name n)
    | none => .flaw (unexpectedCharacter (text.headD '_'))
  | oneDot | twoDots => .flaw "Unterminated spread operator"
  | minus => .flaw (unexpectedCharacter '-')
  | zero | digits => .token (.int (String.ofList text))
  | fraction | exponentDigits => .token (.float (String.ofList text))
  | point | exponent | exponentSign => .flaw "Unexpected EOF in float value"
  | quote => .flaw "unexpected end of data while lexing string value"
  | emptyString | closed none => .token (.string (String.ofList text))
  | quoted _ _ | block _ => .flaw unterminatedString
  | closed (some problem) => .flaw problem
  | flaw message => .flaw message

/-- The scanner for schema documents. -/
def scanner : Scanner where
  State := ScanState
  start := ScanState.start
  next := ScanState.next
  finish := ScanState.finish

/-- The lexemes of a schema document. -/
def scan (text : List Char) : List Lexeme := scanner.scan text

/-- The lexemes of a document, put together, are its text. -/
theorem join_scan (text : List Char) : Lexeme.join (scan text) = text :=
  scanner.join_scan text

end SchemaCatalog.Document

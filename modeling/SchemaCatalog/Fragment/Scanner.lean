/-
# Lexemes of a fragment

Fragments are read by rules of their own before they are merged: commas are white
space, a number is everything up to the next character that cannot be part of
one, and no more than fifty brackets may be open at once.  What is no token is
stray: it does not matter until a token is looked for in its place.
-/
import SchemaCatalog.Lexeme.Scanner
import SchemaCatalog.Number.Decimal

namespace SchemaCatalog.Fragment

open Decimal (isExponentMark)

/-! ## Numbers -/

/-- Whether a text is a whole number: digits with an optional minus, and no zero
before another digit. -/
def isWhole (cs : List Char) : Bool :=
  let digits := if cs.head? == some '-' then cs.drop 1 else cs
  digits == ['0'] || (digits ≠ [] && digits.head? ≠ some '0' && digits.all Char.isDigit)

/-- Whether a text is one digit or more. -/
def isDigits (cs : List Char) : Bool := cs ≠ [] && cs.all Char.isDigit

/-- Whether a text looks like an exponent.  Without a sign it must not start with a
zero or a nine; a sign may stand alone here. -/
def isExponent : List Char → Bool
  | [] => false
  | c :: cs => (c == '-' || c == '+' || ('1' ≤ c && c ≤ '8')) && cs.all Char.isDigit

/-- Whether a text is a whole number with an optional fraction. -/
def isMantissa (cs : List Char) : Bool :=
  let whole := cs.takeWhile (· != '.')
  match cs.dropWhile (· != '.') with
  | [] => isWhole whole
  | _ :: fraction => isWhole whole && isDigits fraction

/-- Whether a text is a number with a fraction or an exponent.  The exponent
stands behind the last mark. -/
def isFloat (cs : List Char) : Bool :=
  if cs.any isExponentMark then
    let exponent := (cs.reverse.takeWhile fun c => !isExponentMark c).reverse
    let mantissa := cs.take (cs.length - exponent.length - 1)
    isMantissa mantissa && isExponent exponent
  else
    isMantissa cs

/-- Whether a number is written with a fraction or an exponent. -/
def looksFractional (cs : List Char) : Bool :=
  cs.any fun c => c == '.' || isExponentMark c

/-! ## States -/

/-- Where the scanner stands inside a lexeme. -/
inductive ScanState where
  | blank
  | comment
  /-- After the end of line that ends a comment. -/
  | commentEnd
  | mark (m : Mark)
  | name
  | oneDot
  | twoDots
  | number
  /-- After the quote that opens a string. -/
  | quote
  /-- After two quotes: an empty string, or the opening of a block. -/
  | emptyString
  /-- Inside a quoted string; whether the next character is escaped. -/
  | quoted (isEscaped : Bool)
  /-- Inside a block string: the number of quotes that may begin its end, and
  whether a backslash stands before them. -/
  | block (isEscaped : Bool) (quotes : Nat)
  /-- After the quote that closes a string. -/
  | closed
  /-- After the end of line that a quoted string cannot hold. -/
  | broken
  /-- After a character that fits nothing. -/
  | unknown

/-- White space between lexemes. -/
def isBlank (c : Char) : Bool :=
  c == ' ' || c == '\t' || c == '\n' || c == '\r' || c == ',' || c == '\uFEFF'

/-- Whether a number ends before a character. -/
def endsNumber (c : Char) : Bool :=
  " \n\r\t,#!$:=@|&()[]\x7b\x7d".toList.contains c

/-- The state after the first character of a lexeme. -/
def ScanState.start (c : Char) : ScanState :=
  if isBlank c then .blank
  else if c == '#' then .comment
  else if c == '.' then .oneDot
  else if c == '-' || c.isDigit then .number
  else if c == '"' then .quote
  else if isNameStart c then .name
  else match Mark.ofChar? c with
    | some m => .mark m
    | none => .unknown

/-- The state after one more character of a quoted string. -/
def ScanState.nextQuoted (isEscaped : Bool) (c : Char) : ScanState :=
  if c == '"' && !isEscaped then .closed
  else if c == '\n' then .broken
  else .quoted (!isEscaped && c == '\\')

/-- The state after one more character of a block string. -/
def ScanState.nextBlock (isEscaped : Bool) (quotes : Nat) (c : Char) : ScanState :=
  if c == '"' then
    -- three quotes behind a backslash belong to the text
    if quotes == 2 then if isEscaped then .block false 0 else .closed
    else .block isEscaped (quotes + 1)
  else .block (c == '\\') 0

/-- The state after one more character of a lexeme. -/
def ScanState.next (st : ScanState) (c : Char) : Option ScanState :=
  match st with
  | blank => if isBlank c then some .blank else none
  | comment => if c == '\n' || c == '\r' then some .commentEnd else some .comment
  | commentEnd => none
  | mark _ => none
  | name => if isNameContinue c then some .name else none
  | oneDot => if c == '.' then some .twoDots else none
  | twoDots => if c == '.' then some (.mark .spread) else none
  | number => if endsNumber c then none else some .number
  | quote => if c == '"' then some .emptyString else some (ScanState.nextQuoted false c)
  | emptyString => if c == '"' then some (.block false 0) else none
  | quoted isEscaped => some (ScanState.nextQuoted isEscaped c)
  | block isEscaped quotes => some (ScanState.nextBlock isEscaped quotes c)
  | closed => none
  | broken => none
  | unknown => none

/-- What a lexeme with a given text is, when it ends in a state. -/
def ScanState.finish (st : ScanState) (text : List Char) : Lexeme.Kind :=
  match st with
  | blank | comment | commentEnd => .blank
  | mark m => .token (.mark m)
  | name =>
    match Name.ofText? (String.ofList text) with
    | some n => .token (.name n)
    | none => .stray "malformed name"
  | oneDot | twoDots => .stray "a dot alone is not supported, only three"
  | number =>
    -- whatever does not end a number belongs to it, so it is judged as a whole
    if looksFractional text then
      if isFloat text then .token (.float (String.ofList text))
      else .stray ("unsupported float " ++ String.ofList text)
    else
      if isWhole text then .token (.int (String.ofList text))
      else .stray ("unsupported integer " ++ String.ofList text)
  | emptyString | closed => .token (.string (String.ofList text))
  | quote | quoted _ | broken => .stray "unterminated string value"
  | block _ _ => .stray "unterminated block string value"
  | unknown => .stray ("unexpected character " ++ String.ofList text)

/-- The scanner for fragments. -/
def scanner : Scanner where
  State := ScanState
  start := ScanState.start
  next := ScanState.next
  finish := ScanState.finish

/-! ## Brackets -/

/-- The number of brackets that may be open at once. -/
def maxBrackets : Nat := 50

/-- The number of brackets that may still be opened after a lexeme, or `none` if
it opens one too many.  Each bracket that is closed makes room for one, whether
it was open or not. -/
def roomAfter (room : Nat) (l : Lexeme) : Option Nat :=
  match l.token? with
  | some (.mark m) =>
    if m.isOpening then if room = 0 then none else some (room - 1)
    else if m.isClosing then some (room + 1)
    else some room
  | _ => some room

/-- Lexemes of which those that open one bracket too many are stray. -/
def limitBrackets (room : Nat) : List Lexeme → List Lexeme
  | [] => []
  | l :: ls =>
    match roomAfter room l with
    | some rest => l :: limitBrackets rest ls
    | none => ⟨l.text, .stray "too many brackets are open"⟩ :: limitBrackets room ls

/-- The lexemes of a fragment. -/
def scan (text : List Char) : List Lexeme := limitBrackets maxBrackets (scanner.scan text)

end SchemaCatalog.Fragment

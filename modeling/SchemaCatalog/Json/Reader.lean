/-
# Reading JSON

The reader accepts what the standard accepts, with these limits: at most 127
arrays and objects may be open at once, no number may be beyond the range of
double precision, and no half of a pair of sixteen-bit units may stand alone.
Of members of one object with the same key the last one counts.  A fault is told
with the line and the byte of that line where the reader noticed it.
-/
import SchemaCatalog.Json.Basic
import SchemaCatalog.Json.Number
import SchemaCatalog.Text.Basic
import SchemaCatalog.Text.CodePoint

namespace SchemaCatalog.Json

open Text (hexFrom? isLeadingHalf isTrailingHalf joinHalves)

/-! ## Faults -/

/-- Why a text is not JSON. -/
inductive Fault where
  | endsInValue
  | endsInArray
  | endsInObject
  | endsInString
  | colonExpected
  | itemEndExpected
  | memberEndExpected
  | unknownWord
  | valueExpected
  | unknownEscape
  | malformedNumber
  | numberOutOfRange
  | controlCharacter
  | keyExpected
  | loneHalf
  | secondHalfExpected
  | trailingComma
  | trailingText
  | tooManyLevels
  deriving DecidableEq

/-- How a fault is reported. -/
def Fault.message : Fault → String
  | endsInValue => "EOF while parsing a value"
  | endsInArray => "EOF while parsing a list"
  | endsInObject => "EOF while parsing an object"
  | endsInString => "EOF while parsing a string"
  | colonExpected => "expected `:`"
  | itemEndExpected => "expected `,` or `]`"
  | memberEndExpected => "expected `,` or `\x7d`"
  | unknownWord => "expected ident"
  | valueExpected => "expected value"
  | unknownEscape => "invalid escape"
  | malformedNumber => "invalid number"
  | numberOutOfRange => "number out of range"
  | controlCharacter => "control character (\\u0000-\\u001F) found while parsing a string"
  | keyExpected => "key must be a string"
  | loneHalf => "lone leading surrogate in hex escape"
  | secondHalfExpected => "unexpected end of hex escape"
  | trailingComma => "trailing comma"
  | trailingText => "trailing characters"
  | tooManyLevels => "recursion limit exceeded"

/-- A fault, the text that lies ahead, and the number of bytes of it that the reader
has looked at already. -/
structure ReadFailure where
  fault : Fault
  ahead : List Char
  looked : Nat

/-- What reading yields: for a part of a text the part, and the text that lies ahead. -/
abbrev Reading : Type → Type := Except ReadFailure

/-- Refuses to read on. -/
def refuse {α : Type} (fault : Fault) (ahead : List Char) : Reading α :=
  .error ⟨fault, ahead, 0⟩

/-- Refuses the byte that stands next. -/
def refuseNext {α : Type} (fault : Fault) (ahead : List Char) : Reading α :=
  .error ⟨fault, ahead, 1⟩

/-- Refuses what stands next, or the end of the text if nothing does. -/
def refuseOrEnd {α : Type} (atEnd fault : Fault) (ahead : List Char) : Reading α :=
  if ahead.isEmpty then refuse atEnd [] else refuseNext fault ahead

/-! ## White space and words -/

/-- White space between the parts of a value. -/
def isBlank (c : Char) : Bool := c == ' ' || c == '\t' || c == '\n' || c == '\r'

/-- The text from the next part of a value on. -/
def skipBlank (cs : List Char) : List Char := cs.dropWhile isBlank

/-- Reads a word letter by letter. -/
def readWord {α : Type} (result : α) : (word cs : List Char) → Reading (α × List Char)
  | [], cs => .ok (result, cs)
  | _ :: _, [] => refuse .endsInValue []
  | w :: ws, c :: cs =>
    if w = c then readWord result ws cs else refuseNext .unknownWord (c :: cs)

/-! ## Numbers -/

/-- Cuts off the digits at the head of a text. -/
def spanDigits (cs : List Char) : List Char × List Char := cs.span Char.isDigit

/-- Reads at least one digit. -/
def readDigits (cs : List Char) : Reading (List Char × List Char) :=
  if cs.head?.any Char.isDigit then .ok (spanDigits cs)
  else refuseOrEnd .endsInValue .malformedNumber cs

/-- Reads the digits before the point: no zero before another digit. -/
def readWhole (cs : List Char) : Reading (List Char × List Char) :=
  match cs with
  | '0' :: rest =>
    if rest.head?.any Char.isDigit then refuseNext .malformedNumber rest else .ok (['0'], rest)
  | _ => readDigits cs

/-- Reads a point and the digits behind it, if there is a point. -/
def readFraction (cs : List Char) : Reading (List Char × List Char) :=
  match cs with
  | '.' :: rest => do
    let (ds, rest) ← readDigits rest
    .ok ('.' :: ds, rest)
  | _ => .ok ([], cs)

/-- Reads an exponent, if there is one. -/
def readExponent (cs : List Char) : Reading (List Char × List Char) :=
  match cs with
  | c :: rest =>
    if c == 'e' || c == 'E' then do
      let (sign, rest) :=
        if rest.head? == some '+' || rest.head? == some '-' then (rest.take 1, rest.drop 1)
        else ([], rest)
      let (ds, rest) ← readDigits rest
      .ok (c :: (sign ++ ds), rest)
    else .ok ([], cs)
  | [] => .ok ([], [])

/-- Reads a number. -/
def readNumber (cs : List Char) : Reading (Json × List Char) := do
  let (sign, rest) := if cs.head? = some '-' then (['-'], cs.drop 1) else ([], cs)
  let (whole, rest) ← readWhole rest
  let (fraction, rest) ← readFraction rest
  let (exponent, rest) ← readExponent rest
  let text := sign ++ whole ++ fraction ++ exponent
  let parts := NumberParts.ofChars text
  if parts.value?.isSome then .ok (number (String.ofList text), rest)
  else refuse .numberOutOfRange (parts.unreadDigits ++ rest)

/-! ## Strings -/

/-- The character that an escape of one letter stands for. -/
def simpleEscape? (c : Char) : Option Char :=
  match c with
  | '"' => some '"'
  | '\\' => some '\\'
  | '/' => some '/'
  | 'b' => some '\x08'
  | 'f' => some '\x0c'
  | 'n' => some '\n'
  | 'r' => some '\r'
  | 't' => some '\t'
  | _ => none

/-- Puts a character in front of what was read. -/
def consRead (c : Char) (r : Reading (List Char × List Char)) : Reading (List Char × List Char) :=
  match r with
  | .ok (cs, rest) => .ok (c :: cs, rest)
  | .error e => .error e

/-- Refuses what stands where the digits of an escape should: four bytes of it, or
the end of the text if there are not so many. -/
def refuseDigits {α : Type} (ahead : List Char) : Reading α :=
  if Text.byteSize ahead < 4 then refuse .endsInString [] else .error ⟨.unknownEscape, ahead, 4⟩

/-- Reads the rest of a string after its opening quote. -/
def readChars : List Char → Reading (List Char × List Char)
  | [] => refuse .endsInString []
  | '"' :: rest => .ok ([], rest)
  | '\\' :: 'u' :: a :: b :: c :: d :: rest =>
    match hexFrom? 0 [a, b, c, d] with
    | none => refuseDigits (a :: b :: c :: d :: rest)
    | some n =>
      if isTrailingHalf n then refuse .loneHalf rest
      else if isLeadingHalf n then
        match rest with
        | '\\' :: 'u' :: e :: f :: g :: h :: rest =>
          match hexFrom? 0 [e, f, g, h] with
          | none => refuseDigits (e :: f :: g :: h :: rest)
          | some m =>
            if isTrailingHalf m then
              consRead (joinHalves n m) (readChars rest)
            else refuse .loneHalf rest
        | '\\' :: 'u' :: rest => refuseDigits rest
        | '\\' :: rest => refuseOrEnd .endsInString .secondHalfExpected rest
        | rest => refuseOrEnd .endsInString .secondHalfExpected rest
      else consRead (Char.ofNat n) (readChars rest)
  | '\\' :: 'u' :: rest => refuseDigits rest
  | '\\' :: c :: rest =>
    match simpleEscape? c with
    | some d => consRead d (readChars rest)
    | none => refuseNext .unknownEscape (c :: rest)
  | c :: rest =>
    if c.toNat < 0x20 then
      refuseNext .controlCharacter (c :: rest)
    -- only at the end of the text is a backslash left over here
    else if c = '\\' then refuse .endsInString []
    else consRead c (readChars rest)

/-- Reads the rest of a string as a text. -/
def readString (cs : List Char) : Reading (String × List Char) :=
  match readChars cs with
  | .ok (s, rest) => .ok (String.ofList s, rest)
  | .error e => .error e

/-! ## Values -/

/-- Reads a key and the colon behind it, from the quote on. -/
def readKey (cs : List Char) : Reading (String × List Char) :=
  match cs with
  | '"' :: rest => do
    let (key, rest) ← readString rest
    match skipBlank rest with
    | ':' :: rest => .ok (key, rest)
    | rest => refuseOrEnd .endsInObject .colonExpected rest
  | rest => refuseNext .keyExpected rest

mutual

/-- Reads a value.  Each step down or on takes one unit of `fuel`; `levels` more
arrays and objects may be opened. -/
def readValue : (fuel levels : Nat) → List Char → Reading (Json × List Char)
  | 0, _, cs => refuse .valueExpected cs
  | fuel + 1, levels, cs =>
    match skipBlank cs with
    | [] => refuse .endsInValue []
    | 'n' :: rest => readWord null "ull".toList rest
    | 't' :: rest => readWord (bool true) "rue".toList rest
    | 'f' :: rest => readWord (bool false) "alse".toList rest
    | '"' :: rest => do
      let (s, rest) ← readString rest
      .ok (string s, rest)
    | '[' :: rest =>
      match levels with
      | 0 => refuse .tooManyLevels rest
      | levels + 1 =>
        match skipBlank rest with
        | ']' :: rest => .ok (array [], rest)
        | [] => refuse .endsInArray []
        | rest => readItems fuel levels [] rest
    | '{' :: rest =>
      match levels with
      | 0 => refuse .tooManyLevels rest
      | levels + 1 =>
        match skipBlank rest with
        | '}' :: rest => .ok (object [], rest)
        | [] => refuse .endsInObject []
        | rest => readMembers fuel levels [] rest
    | c :: rest =>
      if c == '-' || c.isDigit then readNumber (c :: rest)
      else refuseNext .valueExpected (c :: rest)

/-- Reads the items of an array up to its end; `read` holds those before, the last
one first. -/
def readItems : (fuel levels : Nat) → (read : List Json) → List Char → Reading (Json × List Char)
  | 0, _, _, cs => refuse .valueExpected cs
  | fuel + 1, levels, read, cs => do
    let (v, rest) ← readValue fuel levels cs
    match skipBlank rest with
    | ',' :: rest =>
      match skipBlank rest with
      | ']' :: rest => refuseNext .trailingComma (']' :: rest)
      | rest => readItems fuel levels (v :: read) rest
    | ']' :: rest => .ok (array (v :: read).reverse, rest)
    | rest => refuseOrEnd .endsInArray .itemEndExpected rest

/-- Reads the members of an object up to its end. -/
def readMembers :
    (fuel levels : Nat) → (read : List (String × Json)) → List Char → Reading (Json × List Char)
  | 0, _, _, cs => refuse .valueExpected cs
  | fuel + 1, levels, read, cs => do
    let (key, rest) ← readKey (skipBlank cs)
    let (v, rest) ← readValue fuel levels rest
    match skipBlank rest with
    | ',' :: rest =>
      match skipBlank rest with
      | '}' :: rest => refuseNext .trailingComma ('}' :: rest)
      | [] => refuse .endsInValue []
      | rest => readMembers fuel levels (setMember key v read) rest
    | '}' :: rest => .ok (object (setMember key v read), rest)
    | rest => refuseOrEnd .endsInObject .memberEndExpected rest

end

/-! ## Texts -/

/-- The number of arrays and objects that may be open at once. -/
def maxLevels : Nat := 127

/-- A line of a text, counted from one, and a number of bytes of that line. -/
structure Place where
  line : Nat
  column : Nat
  deriving DecidableEq

/-- The place some bytes on in a text, which may lie within a character. -/
def Place.advance (p : Place) : (bytes : Nat) → List Char → Place
  | 0, _ => p
  | _ + 1, [] => p
  | n + 1, c :: cs =>
    if c = '\n' then Place.advance ⟨p.line + 1, 0⟩ n cs
    else if c.utf8Size ≤ n + 1 then
      Place.advance ⟨p.line, p.column + c.utf8Size⟩ (n + 1 - c.utf8Size) cs
    else ⟨p.line, p.column + (n + 1)⟩

/-- The first fault of a text that is not JSON, and the place where it shows. -/
structure SyntaxError where
  fault : Fault
  place : Place
  deriving DecidableEq

/-- The place of a failure in a text. -/
def ReadFailure.locate (text : List Char) (e : ReadFailure) : SyntaxError :=
  let passed := Text.byteSize text - Text.byteSize e.ahead
  ⟨e.fault, Place.advance ⟨1, 0⟩ (passed + e.looked) text⟩

/-- Reads a text that is one value. -/
def readAll (levels : Nat) (cs : List Char) : Reading Json := do
  let (v, rest) ← readValue (2 * cs.length + 2) levels cs
  match skipBlank rest with
  | [] => .ok v
  | rest => refuseNext .trailingText rest

/-- Reads a text that is one value. -/
def ofText (text : String) : Except SyntaxError Json :=
  match readAll maxLevels text.toList with
  | .ok v => .ok v
  | .error e => .error (e.locate text.toList)

end SchemaCatalog.Json

/-
# Text as bytes

Decoding accepts exactly the byte sequences that encode a text in UTF-8.  Where it
fails it tells how many bytes were good, and how long the bad sequence is unless
the bytes end within it.  Where a text is wanted at any price, each bad sequence is
replaced by one character.
-/

namespace SchemaCatalog.Text

/-- The bytes that encode a text in UTF-8. -/
def encode (t : String) : List UInt8 := t.toUTF8.data.toList

/-- Where bytes stop being the encoding of a text. -/
structure Undecodable where
  /-- The number of bytes before the bad sequence. -/
  validUpTo : Nat
  /-- The number of bytes of the bad sequence, or `none` if more would have to come. -/
  length : Option Nat
  deriving DecidableEq

/-- How undecodable bytes are reported. -/
def Undecodable.message (e : Undecodable) : String :=
  match e.length with
  | some n =>
    "invalid utf-8 sequence of " ++ toString n ++ " bytes from index " ++ toString e.validUpTo
  | none => "incomplete utf-8 byte sequence from index " ++ toString e.validUpTo

/-! ## Bytes -/

/-- Whether a byte lies between two bounds. -/
def isWithin (low high : Nat) (b : UInt8) : Bool := low ≤ b.toNat && b.toNat ≤ high

/-- Whether a byte continues a character. -/
def isContinuation (b : UInt8) : Bool := isWithin 0x80 0xBF b

/-- The bits that a continuation adds to those before it. -/
def extend (bits : Nat) (b : UInt8) : Nat := 64 * bits + b.toNat % 64

/-- The bounds of the second byte of a character of three bytes, which keep out
overlong forms and halves of pairs. -/
def secondOfThree (a : UInt8) : Nat × Nat :=
  if a == 0xE0 then (0xA0, 0xBF) else if a == 0xED then (0x80, 0x9F) else (0x80, 0xBF)

/-- The bounds of the second byte of a character of four bytes, which keep out
overlong forms and numbers beyond the last character. -/
def secondOfFour (a : UInt8) : Nat × Nat :=
  if a == 0xF0 then (0x90, 0xBF) else if a == 0xF4 then (0x80, 0x8F) else (0x80, 0xBF)

/-! ## Decoding -/

/-- Puts a character in front of a decoded text. -/
def consDecoded (n : Nat) (r : Except Undecodable (List Char)) : Except Undecodable (List Char) :=
  match r with
  | .ok cs => .ok (Char.ofNat n :: cs)
  | .error e => .error e

/-- The text that bytes encode, the first of them being the one at an index. -/
def decodeFrom (index : Nat) : List UInt8 → Except Undecodable (List Char)
  | [] => .ok []
  | a :: rest =>
    if a.toNat < 0x80 then consDecoded a.toNat (decodeFrom (index + 1) rest)
    else if isWithin 0xC2 0xDF a then
      match rest with
      | [] => .error ⟨index, none⟩
      | b :: rest =>
        if isContinuation b then
          consDecoded (extend (a.toNat % 32) b) (decodeFrom (index + 2) rest)
        else .error ⟨index, some 1⟩
    else if isWithin 0xE0 0xEF a then
      match rest with
      | [] => .error ⟨index, none⟩
      | b :: rest =>
        if isWithin (secondOfThree a).1 (secondOfThree a).2 b then
          match rest with
          | [] => .error ⟨index, none⟩
          | c :: rest =>
            if isContinuation c then
              consDecoded (extend (extend (a.toNat % 16) b) c) (decodeFrom (index + 3) rest)
            else .error ⟨index, some 2⟩
        else .error ⟨index, some 1⟩
    else if isWithin 0xF0 0xF4 a then
      match rest with
      | [] => .error ⟨index, none⟩
      | b :: rest =>
        if isWithin (secondOfFour a).1 (secondOfFour a).2 b then
          match rest with
          | [] => .error ⟨index, none⟩
          | c :: rest =>
            if isContinuation c then
              match rest with
              | [] => .error ⟨index, none⟩
              | d :: rest =>
                if isContinuation d then
                  consDecoded (extend (extend (extend (a.toNat % 8) b) c) d)
                    (decodeFrom (index + 4) rest)
                else .error ⟨index, some 3⟩
            else .error ⟨index, some 2⟩
        else .error ⟨index, some 1⟩
    else .error ⟨index, some 1⟩

/-- The text that bytes encode. -/
def decode (bytes : List UInt8) : Except Undecodable String :=
  match decodeFrom 0 bytes with
  | .ok cs => .ok (String.ofList cs)
  | .error e => .error e

/-! ## Bytes that need not encode a text -/

/-- A stretch of bytes: the text that they encode, and a bad sequence behind it. -/
structure Stretch where
  text : List Char
  bad : List UInt8
  deriving DecidableEq

/-- The stretches of bytes.  Each has a byte, so the number of bytes is `fuel` enough. -/
def stretchesWithin : (fuel : Nat) → List UInt8 → List Stretch
  | 0, _ => []
  | fuel + 1, bytes =>
    match decodeFrom 0 bytes with
    | .ok cs => [⟨cs, []⟩]
    | .error e =>
      let text := (decodeFrom 0 (bytes.take e.validUpTo)).toOption.getD []
      let rest := bytes.drop e.validUpTo
      match e.length with
      | some n => ⟨text, rest.take n⟩ :: stretchesWithin fuel (rest.drop n)
      | none => [⟨text, rest⟩]

/-- The stretches of bytes. -/
def stretches (bytes : List UInt8) : List Stretch := stretchesWithin bytes.length bytes

/-- The text of a stretch, with one character in place of a bad sequence. -/
def Stretch.mended (s : Stretch) : List Char :=
  if s.bad.isEmpty then s.text else s.text ++ ['\uFFFD']

/-- The text of bytes, with one character in place of each bad sequence. -/
def mend (bytes : List UInt8) : String :=
  String.ofList ((stretches bytes).flatMap Stretch.mended)

end SchemaCatalog.Text

/-
# Decimal numbers

A number as it is written: a sign, a whole number of units, and the power of ten
that the unit is.
-/

namespace SchemaCatalog

/-- The number `± units · 10 ^ exponent`. -/
structure Decimal where
  isNegative : Bool
  units : Nat
  exponent : Int
  deriving DecidableEq

namespace Decimal

/-- The value of a row of digits. -/
def ofDigits (cs : List Char) : Nat :=
  cs.foldl (fun n c => 10 * n + (c.toNat - '0'.toNat)) 0

/-- A row of digits with an optional sign. -/
def ofSigned (cs : List Char) : Int :=
  match cs with
  | '-' :: ds => -(ofDigits ds : Int)
  | '+' :: ds => ofDigits ds
  | ds => ofDigits ds

/-- Whether a character begins an exponent. -/
def isExponentMark (c : Char) : Bool := c == 'e' || c == 'E'

/-- The number that a text of digits writes, with an optional sign before them, an
optional fraction, and an optional exponent behind. -/
def ofChars (cs : List Char) : Decimal :=
  let isNegative := cs.head? == some '-'
  let unsigned := if isNegative then cs.drop 1 else cs
  let body := unsigned.takeWhile fun c => !isExponentMark c
  let power := ofSigned ((unsigned.dropWhile fun c => !isExponentMark c).drop 1)
  let whole := body.takeWhile (· != '.')
  let fraction := (body.dropWhile (· != '.')).drop 1
  ⟨isNegative, ofDigits (whole ++ fraction), power - fraction.length⟩

end Decimal

end SchemaCatalog

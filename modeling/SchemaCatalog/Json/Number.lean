/-
# Numbers of a JSON text

A number that is written without fraction and exponent, and fits into a word of 64
bits, is whole.  Any other is a floating-point number.  Its leading digits are
gathered in a word of 64 bits as long as they fit, and the power of ten is applied
to that word in floating-point arithmetic; so the value may lie a little off the
number next to the one that is written.
-/
import SchemaCatalog.Number.Shortest

namespace SchemaCatalog.Json

/-! ## Values -/

/-- The value of a number. -/
inductive NumberValue where
  | whole (value : Int)
  | floating (value : Binary64)

/-- How the value of a number is reported. -/
def NumberValue.report : NumberValue → String
  | whole value => "integer `" ++ toString value ++ "`"
  | floating value => "floating point `" ++ value.text ++ "`"

/-! ## Parts of a number -/

/-- The digits of a number as it is written, and the signs of the number and of its
exponent. -/
structure NumberParts where
  isNegative : Bool
  whole : List Char
  fraction : List Char
  /-- The sign and the digits of the exponent, if there is one. -/
  exponent : Option (Bool × List Char)

namespace NumberParts

/-- The parts of an exponent, from its sign on. -/
def exponentOf (cs : List Char) : Bool × List Char :=
  match cs with
  | '-' :: ds => (true, ds)
  | '+' :: ds => (false, ds)
  | ds => (false, ds)

/-- The parts of the text of a number. -/
def ofChars (cs : List Char) : NumberParts :=
  let isNegative := cs.head? == some '-'
  let unsigned := if isNegative then cs.drop 1 else cs
  let body := unsigned.takeWhile fun c => !Decimal.isExponentMark c
  let behind := unsigned.dropWhile fun c => !Decimal.isExponentMark c
  { isNegative := isNegative
    whole := body.takeWhile (· != '.')
    fraction := (body.dropWhile (· != '.')).drop 1
    exponent := if behind.isEmpty then none else some (exponentOf (behind.drop 1)) }

/-! ## The word of digits -/

/-- The greatest value of a word of 64 bits. -/
def maxWord : Nat := Nat.pow 2 64 - 1

/-- The value of a word behind which a digit is put. -/
def pushDigit (word : Nat) (c : Char) : Nat := 10 * word + (c.toNat - '0'.toNat)

/-- Puts digits behind a word as long as they fit, and tells how many did not come to
that. -/
def gather (word : Nat) : List Char → Nat × Nat
  | [] => (word, 0)
  | c :: cs =>
    if pushDigit word c ≤ maxWord then gather (pushDigit word c) cs else (word, cs.length + 1)

/-- The word that the digits of a number make up, and the power of ten it is to be
multiplied by.  Digits of the fraction follow those before the point even if not all
of these did fit. -/
def significand (n : NumberParts) : Nat × Int :=
  let (word, left) := gather 0 n.whole
  let (word', left') := gather word n.fraction
  (word', left - (n.fraction.length - left' : Nat))

/-- The exponent as it is written. -/
def writtenExponent (n : NumberParts) : Int :=
  match n.exponent with
  | some (true, ds) => -(Decimal.ofDigits ds : Int)
  | some (false, ds) => Decimal.ofDigits ds
  | none => 0

/-! ## The value -/

/-- A number times a power of ten, if that is within the range.  Small powers are
reached in steps; after a few of them the number is zero. -/
def applyPower (x : Binary64) (e : Int) : (steps : Nat) → Option Binary64
  | 0 => some x
  | steps + 1 =>
    if e.natAbs ≤ Binary64.maxPower then
      if 0 ≤ e then
        let y := x.timesPower e.toNat
        if y.isInfinite then none else some y
      else some (x.overPower e.natAbs)
    else if x.isZero then some x
    else if 0 ≤ e then none
    else applyPower (x.overPower Binary64.maxPower) (e + Binary64.maxPower) steps

/-- The value as a floating-point number, if it is within the range. -/
def floating? (n : NumberParts) : Option Binary64 :=
  let (word, power) := n.significand
  (applyPower (Binary64.ofDecimal ⟨false, word, 0⟩) (power + n.writtenExponent) 4).map fun x =>
    if n.isNegative then x.neg else x

/-- The value as a whole number, if the number is written as one and fits into a
word of 64 bits.  There is no negative zero among whole numbers. -/
def whole? (n : NumberParts) : Option Int :=
  if n.fraction.isEmpty && n.exponent.isNone then
    let i := Decimal.ofDigits n.whole
    if n.isNegative then if i ≠ 0 ∧ i ≤ Nat.pow 2 63 then some (-(i : Int)) else none
    else if i ≤ maxWord then some i else none
  else none

/-- The value of a number, if it is within the range. -/
def value? (n : NumberParts) : Option NumberValue :=
  match n.whole? with
  | some i => some (.whole i)
  | none => n.floating?.map .floating

/-! ## Exponents that are too long -/

/-- The greatest exponent that is counted at all. -/
def maxExponent : Nat := Nat.pow 2 31 - 1

/-- The digits behind the one with which the value of an exponent passes the greatest
one, if it does. -/
def surplusDigits? (word : Nat) : List Char → Option (List Char)
  | [] => none
  | c :: cs =>
    if maxExponent < pushDigit word c then some cs else surplusDigits? (pushDigit word c) cs

/-- The digits of an exponent that need not be looked at to see that the number is out
of range. -/
def unreadDigits (n : NumberParts) : List Char :=
  match n.exponent with
  | some (false, ds) => (surplusDigits? 0 ds).getD []
  | _ => []

end NumberParts

/-- How the number that a text writes is reported. -/
def reportNumber (text : String) : String :=
  match (NumberParts.ofChars text.toList).value? with
  | some v => v.report
  | none => "number `" ++ text ++ "`"

/-- A fraction of zero does not make a number whole, and its digits do not matter. -/
example : reportNumber "5.0" = reportNumber "5.00" ∧ reportNumber "5.0" ≠ reportNumber "5" := by
  decide +kernel

/-- Beyond 64 bits a number is no longer whole. -/
example : reportNumber "18446744073709551615" = "integer `18446744073709551615`"
    ∧ reportNumber "18446744073709551616" = "floating point `18446744073709552000`" := by
  decide +kernel

end SchemaCatalog.Json

/-
# The shortest decimal text of a binary number

Among the decimal numbers that are read back as a given binary number there are
some with the fewest digits; the nearest of these is the number's text.  It is
written without an exponent.
-/
import SchemaCatalog.Number.Binary64

namespace SchemaCatalog.Binary64

/-! ## The interval that is read back -/

/-- The numbers that are read back as one binary number, in quarters of its last
place: their bounds, and whether the bounds belong to them. -/
structure Interval where
  below : Nat
  above : Nat
  isClosed : Bool
  /-- The power of two that a quarter of the last place is. -/
  exponent : Int

/-- The interval around `significand · 2 ^ exponent`.  Below a power of two the
neighbours are half as far away as above it. -/
def interval (significand : Nat) (exponent : Int) : Interval where
  below :=
    if significand = Nat.pow 2 (precision - 1) && minExponent < exponent then 4 * significand - 1
    else 4 * significand - 2
  above := 4 * significand + 2
  isClosed := significand % 2 = 0
  exponent := exponent - 2

/-- Whether one ratio is less than another. -/
def less (r s : Ratio) : Bool := r.1 * s.2 < s.1 * r.2

namespace Interval

/-- A whole number of quarters as a ratio. -/
def ratio (i : Interval) (quarters : Nat) : Ratio := times (quarters, 1) (power 2 i.exponent)

/-- Whether a ratio lies in the interval. -/
def contains (i : Interval) (r : Ratio) : Bool :=
  if i.isClosed then !less r (i.ratio i.below) && !less (i.ratio i.above) r
  else less (i.ratio i.below) r && less r (i.ratio i.above)

end Interval

/-! ## Digits -/

/-- The least `n` with `10 ^ n · r ≥ 1`, searched from `n` on. -/
def leadingZeros (r : Ratio) : (fuel n : Nat) → Nat
  | 0, n => n
  | fuel + 1, n => if r.2 ≤ r.1 * Nat.pow 10 n then n else leadingZeros r fuel (n + 1)

/-- The power of ten just above a positive ratio. -/
def magnitude (r : Ratio) : Int :=
  if r.2 ≤ r.1 then digitCount (r.1 / r.2) else 1 - (leadingZeros r 400 1 : Int)

/-- Whether the number of units above a ratio is nearer to it than the one below;
between the two the one above counts as nearer. -/
def upperIsNearer (r : Ratio) : Bool := r.2 ≤ 2 * (r.1 % r.2)

/-- A decimal number in the interval whose last place is `10 ^ place`, the nearest
to the ratio if there are two. -/
def candidate? (i : Interval) (r : Ratio) (place : Int) : Option Nat :=
  let scaled := times r (power 10 (-place))
  let down := scaled.1 / scaled.2
  let isIn (units : Nat) : Bool := i.contains (times (units, 1) (power 10 place))
  match isIn down, isIn (down + 1) with
  | true, true => some (if upperIsNearer scaled then down + 1 else down)
  | true, false => some down
  | false, true => some (down + 1)
  | false, false => none

/-- The first decimal number in the interval with at least `count` digits. -/
def shortestFrom (i : Interval) (r : Ratio) (top : Int) : (fuel count : Nat) → Nat × Int
  | 0, count =>
    let scaled := times r (power 10 (count - top))
    (scaled.1 / scaled.2, top - count)
  | fuel + 1, count =>
    match candidate? i r (top - count) with
    | some units => (units, top - count)
    | none => shortestFrom i r top fuel (count + 1)

/-- The units and the place of the shortest decimal number that is read back as
`significand · 2 ^ exponent`. -/
def shortest (significand : Nat) (exponent : Int) : Nat × Int :=
  let r := times (significand, 1) (power 2 exponent)
  shortestFrom (interval significand exponent) r (magnitude r) 17 1

/-! ## Text -/

/-- Units of a place without the zeros at their end. -/
def dropZeros : (fuel : Nat) → Nat × Int → Nat × Int
  | 0, d => d
  | fuel + 1, (units, place) =>
    if units % 10 = 0 && units ≠ 0 then dropZeros fuel (units / 10, place + 1) else (units, place)

/-- A decimal number without an exponent. -/
def positional (units : Nat) (place : Int) : List Char :=
  let digits := Nat.toDigits 10 units
  if 0 ≤ place then digits ++ List.replicate place.toNat '0'
  else
    let behind := (-place).toNat
    let padded := List.replicate (behind + 1 - digits.length) '0' ++ digits
    let whole := padded.length - behind
    padded.take whole ++ '.' :: padded.drop whole

/-- The text of a binary number. -/
def text : Binary64 → String
  | infinite isNegative => if isNegative then "-inf" else "inf"
  | finite isNegative significand exponent =>
    let digits :=
      if significand = 0 then ['0']
      else
        let d := dropZeros 20 (shortest significand exponent)
        positional d.1 d.2
    String.ofList (if isNegative then '-' :: digits else digits)

end SchemaCatalog.Binary64

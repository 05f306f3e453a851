/-
# Binary numbers of 64 bits

The numbers that floating-point arithmetic of double precision can hold, as exact
whole numbers times powers of two, and the nearest of them to a decimal number.
-/
import SchemaCatalog.Number.Decimal

namespace SchemaCatalog

/-- A number of double precision that is not "not a number". -/
inductive Binary64 where
  /-- The number `± significand · 2 ^ exponent`. -/
  | finite (isNegative : Bool) (significand : Nat) (exponent : Int)
  | infinite (isNegative : Bool)
  deriving DecidableEq

namespace Binary64

/-- The number of bits of a significand. -/
def precision : Nat := 53

/-- The smallest exponent. -/
def minExponent : Int := -1074

/-- The largest exponent. -/
def maxExponent : Int := 971

/-- A fraction of whole numbers: a numerator and a denominator. -/
abbrev Ratio := Nat × Nat

/-- `b ^ e` as a ratio. -/
def power (b : Nat) (e : Int) : Ratio :=
  if 0 ≤ e then (Nat.pow b e.toNat, 1) else (1, Nat.pow b (-e).toNat)

/-- The product of two ratios. -/
def times (r s : Ratio) : Ratio := (r.1 * s.1, r.2 * s.2)

/-- The whole number next to a ratio; a half goes to the even one. -/
def roundHalfEven (r : Ratio) : Nat :=
  let q := r.1 / r.2
  let twice := 2 * (r.1 % r.2)
  if twice < r.2 then q
  else if r.2 < twice then q + 1
  else if q % 2 = 0 then q else q + 1

/-- The number next to a positive ratio.  Its exponent is the smallest with which
the significand fits. -/
def ofRatio (isNegative : Bool) (r : Ratio) : Binary64 :=
  let low := max ((Nat.log2 r.1 : Int) - Nat.log2 r.2 - precision) minExponent
  let atLow := times r (power 2 (-low))
  let e := if Nat.pow 2 precision ≤ atLow.1 / atLow.2 then low + 1 else low
  let m := roundHalfEven (times r (power 2 (-e)))
  let (m, e) :=
    if m = Nat.pow 2 precision then (Nat.pow 2 (precision - 1), e + 1) else (m, e)
  if e ≤ maxExponent then finite isNegative m e else infinite isNegative

/-- The number of decimal digits of a whole number. -/
def digitCount (n : Nat) : Nat := (Nat.toDigits 10 n).length

/-- The number next to a decimal number.  Below `10 ^ -330` that is zero and above
`10 ^ 330` it is infinite, so that powers beyond need not be computed. -/
def ofDecimal (d : Decimal) : Binary64 :=
  let magnitude : Int := digitCount d.units + d.exponent
  if d.units = 0 || magnitude < -330 then finite d.isNegative 0 0
  else if 330 < magnitude then infinite d.isNegative
  else ofRatio d.isNegative (times (d.units, 1) (power 10 d.exponent))

/-! ## Arithmetic with powers of ten -/

/-- Whether a number is zero. -/
def isZero : Binary64 → Bool
  | finite _ significand _ => significand = 0
  | infinite _ => false

/-- Whether a number is infinite. -/
def isInfinite : Binary64 → Bool
  | finite _ _ _ => false
  | infinite _ => true

/-- The number of the other sign. -/
def neg : Binary64 → Binary64
  | finite isNegative significand exponent => finite (!isNegative) significand exponent
  | infinite isNegative => infinite (!isNegative)

/-- The number next to `r` times a number, for a positive ratio. -/
def scale (r : Ratio) : Binary64 → Binary64
  | finite isNegative significand exponent =>
    if significand = 0 then finite isNegative 0 0
    else ofRatio isNegative (times (significand, 1) (times r (power 2 exponent)))
  | infinite isNegative => infinite isNegative

/-- The greatest power of ten that is within the range. -/
def maxPower : Nat := 308

/-- The ratio that the number next to `10 ^ n` is. -/
def tenthPower (n : Nat) : Ratio :=
  match ofDecimal ⟨false, 1, n⟩ with
  | finite _ significand exponent => times (significand, 1) (power 2 exponent)
  | infinite _ => (Nat.pow 10 n, 1)

/-- The number next to a number times the number next to `10 ^ n`. -/
def timesPower (x : Binary64) (n : Nat) : Binary64 := x.scale (tenthPower n)

/-- The number next to a number divided by the number next to `10 ^ n`. -/
def overPower (x : Binary64) (n : Nat) : Binary64 :=
  x.scale ((tenthPower n).2, (tenthPower n).1)

end Binary64

end SchemaCatalog

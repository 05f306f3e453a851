/-
# Code points and their digits

Characters can be written by number, in hexadecimal digits.  Numbers beyond
sixteen bits are sometimes written as a pair of halves, which stand for nothing
when they stand alone.
-/

namespace SchemaCatalog.Text

/-! ## Digits -/

/-- The value of a hexadecimal digit. -/
def hexDigit? (c : Char) : Option Nat :=
  if '0' ≤ c ∧ c ≤ '9' then some (c.toNat - '0'.toNat)
  else if 'a' ≤ c ∧ c ≤ 'f' then some (c.toNat - 'a'.toNat + 10)
  else if 'A' ≤ c ∧ c ≤ 'F' then some (c.toNat - 'A'.toNat + 10)
  else none

/-- The value of hexadecimal digits that follow digits of a given value. -/
def hexFrom? (value : Nat) : List Char → Option Nat
  | [] => some value
  | c :: cs =>
    match hexDigit? c with
    | some d => hexFrom? (16 * value + d) cs
    | none => none

/-- The digits of the hexadecimal system. -/
def hexDigits : List Char := "0123456789abcdef".toList

/-- The digit of a value below sixteen. -/
def hexDigit (n : Nat) : Char := hexDigits.getD n '0'

/-- A digit is read back as its value. -/
theorem hexDigit?_hexDigit {n : Nat} (h : n < 16) : hexDigit? (hexDigit n) = some n := by
  have all : ∀ m : Fin 16, hexDigit? (hexDigit m) = some m.val := by decide
  exact all ⟨n, h⟩

/-! ## Pairs of halves -/

/-- The first half of a pair of sixteen-bit units. -/
def isLeadingHalf (n : Nat) : Bool := 0xD800 ≤ n && n ≤ 0xDBFF

/-- The second half of a pair of sixteen-bit units. -/
def isTrailingHalf (n : Nat) : Bool := 0xDC00 ≤ n && n ≤ 0xDFFF

/-- The character that a pair of halves stands for. -/
def joinHalves (lead trail : Nat) : Char :=
  Char.ofNat (0x10000 + 0x400 * (lead - 0xD800) + (trail - 0xDC00))

/-- Whether a number stands for a character by itself. -/
def isScalar (n : Nat) : Bool := n ≤ 0x10FFFF && !isLeadingHalf n && !isTrailingHalf n

/-! ## Ranges -/

/-- A range of code points: the first and the last of them. -/
abbrev CodeRange : Type := Nat × Nat

/-- Whether a character lies in one of some ranges. -/
def liesIn (rs : List CodeRange) (c : Char) : Bool :=
  rs.any fun r => r.1 ≤ c.toNat && c.toNat ≤ r.2

/-- Whether ranges stand in ascending order with a gap between each two. -/
def areApart : List CodeRange → Bool
  | [] => true
  | [r] => r.1 ≤ r.2
  | r :: s :: rs => r.1 ≤ r.2 && r.2 + 1 < s.1 && areApart (s :: rs)

end SchemaCatalog.Text

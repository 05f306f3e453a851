/-
# White space

The characters that Unicode counts as white space, and what is left of a text
without them at its ends.
-/

namespace SchemaCatalog.Text

/-- Whether Unicode counts a character as white space. -/
def isBlank (c : Char) : Bool :=
  let n := c.toNat
  (0x09 ≤ n && n ≤ 0x0D) || n == 0x20 || n == 0x85 || n == 0xA0 || n == 0x1680
    || (0x2000 ≤ n && n ≤ 0x200A) || n == 0x2028 || n == 0x2029 || n == 0x202F
    || n == 0x205F || n == 0x3000

/-- Whether a text is nothing but white space. -/
def isAllBlank (cs : List Char) : Bool := cs.all isBlank

/-- A text without white space at its ends. -/
def trimChars (cs : List Char) : List Char :=
  ((cs.dropWhile isBlank).reverse.dropWhile isBlank).reverse

/-- A text without white space at its ends. -/
def trim (s : String) : String := String.ofList (trimChars s.toList)

/-- The characters that are white space in every language are so here. -/
example : [' ', '\t', '\n', '\r'].all isBlank = true := by decide

end SchemaCatalog.Text

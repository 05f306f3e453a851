/-
# Characters of a text

Measuring a text in bytes, cutting it at a character, and taking it apart at a mark.
-/

namespace SchemaCatalog.Text

/-! ## Bytes -/

/-- The number of bytes that characters take in UTF-8. -/
def byteSize (cs : List Char) : Nat := cs.foldr (fun c n => c.utf8Size + n) 0

@[simp] theorem byteSize_nil : byteSize [] = 0 := rfl

@[simp] theorem byteSize_cons (c : Char) (cs : List Char) :
    byteSize (c :: cs) = c.utf8Size + byteSize cs := rfl

/-- Sizes add up. -/
theorem byteSize_append (cs ds : List Char) : byteSize (cs ++ ds) = byteSize cs + byteSize ds := by
  induction cs with
  | nil => simp
  | cons c cs ih => rw [List.cons_append, byteSize_cons, byteSize_cons, ih, Nat.add_assoc]

/-- A text has at least as many bytes as characters. -/
theorem length_le_byteSize (cs : List Char) : cs.length ≤ byteSize cs := by
  induction cs with
  | nil => simp
  | cons c cs ih =>
    have hc : 0 < c.utf8Size := c.utf8Size_pos
    simp only [List.length_cons, byteSize_cons]
    omega

/-! ## Pieces -/

/-- Puts a letter in front of the first piece. -/
def consFirst {α : Type} (c : α) : List (List α) → List (List α)
  | [] => [[c]]
  | p :: ps => (c :: p) :: ps

/-- The pieces of a word between the places where a mark stands. -/
def pieces {α : Type} [DecidableEq α] (mark : α) : List α → List (List α)
  | [] => [[]]
  | c :: cs => if c = mark then [] :: pieces mark cs else consFirst c (pieces mark cs)

/-- A text without its first and last `n` characters. -/
def inner (n : Nat) (cs : List Char) : List Char :=
  (cs.drop n).take (cs.length - 2 * n)

end SchemaCatalog.Text

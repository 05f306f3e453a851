/-
# Putting something in at byte offsets

Something is put into a text by cutting the text at offsets in bytes and copying what lies
between the cuts.  This goes wrong where an offset lies behind the end, before the one that
was used last, or within a character.  The borders between the pieces of a text are offsets
at which nothing goes wrong, and what comes out are the pieces, with the same put in before
each piece but the first.
-/
import SchemaCatalog.Fragment.StringValue

namespace SchemaCatalog.Text

open Fragment (dropBytes?)

/-! ## Cutting -/

/-- The first bytes of a text, unless a character lies across the cut. -/
def takeBytes? : Nat → List Char → Option (List Char)
  | 0, _ => some []
  | _ + 1, [] => none
  | n + 1, c :: cs =>
    if c.utf8Size ≤ n + 1 then (takeBytes? (n + 1 - c.utf8Size) cs).map (c :: ·) else none

/-- What lies between two offsets of a text, if they come in order and no character lies
across one of them. -/
def slice? (cs : List Char) (start stop : Nat) : Option (List Char) :=
  if start ≤ stop then (dropBytes? start cs).bind (takeBytes? (stop - start)) else none

/-- The text from an offset on, with something put in at later offsets. -/
def spliceFrom? (inserted cs : List Char) (start : Nat) : List Nat → Option (List Char)
  | [] => slice? cs start (byteSize cs)
  | i :: is =>
    (slice? cs start i).bind fun piece =>
      (spliceFrom? inserted cs i is).map fun rest => piece ++ inserted ++ rest

/-- The text with something put in at some offsets. -/
def splice? (inserted cs : List Char) (offsets : List Nat) : Option (List Char) :=
  spliceFrom? inserted cs 0 offsets

/-- A cut behind a character leaves the bytes behind it. -/
theorem exists_byteSize_cons (c : Char) (cs : List Char) :
    ∃ n, byteSize (c :: cs) = n + 1 ∧ c.utf8Size ≤ n + 1 ∧ n + 1 - c.utf8Size = byteSize cs := by
  have hpos := c.utf8Size_pos
  refine ⟨c.utf8Size - 1 + byteSize cs, ?_, ?_, ?_⟩
  · rw [byteSize_cons]
    omega
  · omega
  · omega

/-- The bytes of the first part of a text can be dropped, since it ends at a border of characters.
-/
theorem dropBytes?_append (as bs : List Char) :
    dropBytes? (byteSize as) (as ++ bs) = some bs := by
  induction as with
  | nil => cases bs <;> rfl
  | cons c as ih =>
    obtain ⟨n, hn, hfits, hsize⟩ := exists_byteSize_cons c as
    rw [hn, List.cons_append, dropBytes?, if_pos hfits, hsize, ih]

theorem takeBytes?_append (as bs : List Char) :
    takeBytes? (byteSize as) (as ++ bs) = some as := by
  induction as with
  | nil => cases bs <;> rfl
  | cons c as ih =>
    obtain ⟨n, hn, hfits, hsize⟩ := exists_byteSize_cons c as
    rw [hn, List.cons_append, takeBytes?, if_pos hfits, hsize, ih, Option.map_some]

/-- What lies between two pieces of a text is cut out where they end and begin. -/
theorem slice?_append (as bs cs : List Char) :
    slice? (as ++ (bs ++ cs)) (byteSize as) (byteSize as + byteSize bs) = some bs := by
  rw [slice?, if_pos (Nat.le_add_right _ _), dropBytes?_append, Option.bind_some,
    Nat.add_sub_cancel_left, takeBytes?_append]

/-! ## Borders -/

/-- The offsets at which pieces begin that follow a first piece, when that begins at a given
offset. -/
def borders (offset : Nat) (first : List Char) : List (List Char) → List Nat
  | [] => []
  | piece :: pieces =>
    (offset + byteSize first) :: borders (offset + byteSize first) piece pieces

@[simp] theorem borders_nil (offset : Nat) (first : List Char) : borders offset first [] = [] := rfl

@[simp] theorem borders_cons (offset : Nat) (first piece : List Char)
    (pieces : List (List Char)) : borders offset first (piece :: pieces) =
      (offset + byteSize first) :: borders (offset + byteSize first) piece pieces := rfl

/-- A first piece may be begun earlier. -/
theorem borders_append (offset : Nat) (as bs : List Char) (pieces : List (List Char)) :
    borders offset (as ++ bs) pieces = borders (offset + byteSize as) bs pieces := by
  cases pieces with
  | nil => rfl
  | cons piece pieces => rw [borders_cons, borders_cons, byteSize_append, Nat.add_assoc]

/-- No border lies within the first piece. -/
theorem le_of_mem_borders {offset i : Nat} {first : List Char} {pieces : List (List Char)}
    (h : i ∈ borders offset first pieces) : offset + byteSize first ≤ i := by
  induction pieces generalizing offset first with
  | nil => cases h
  | cons piece pieces ih =>
    rw [borders_cons, List.mem_cons] at h
    rcases h with rfl | h
    · exact Nat.le_refl _
    · exact Nat.le_trans (Nat.le_add_right _ _) (ih h)

/-- The borders of pieces come one after the other, if no piece is empty. -/
theorem pairwise_borders (offset : Nat) (first : List Char) {pieces : List (List Char)}
    (h : ∀ piece ∈ pieces, piece ≠ []) : (borders offset first pieces).Pairwise (· < ·) := by
  induction pieces generalizing offset first with
  | nil => exact List.Pairwise.nil
  | cons piece pieces ih =>
    rw [List.forall_mem_cons] at h
    refine List.pairwise_cons.2 ⟨fun i hi => ?_, ih _ piece h.2⟩
    have hsize : 0 < byteSize piece :=
      Nat.lt_of_lt_of_le (List.length_pos_iff.2 h.1) (length_le_byteSize piece)
    exact Nat.lt_of_lt_of_le (Nat.lt_add_of_pos_right hsize) (le_of_mem_borders hi)

/-! ## Splicing -/

/-- Splicing at the borders puts the text in front of every piece but the first. -/
theorem spliceFrom?_borders (inserted before first : List Char) (pieces : List (List Char)) :
    spliceFrom? inserted (before ++ (first ++ pieces.flatten)) (byteSize before)
        (borders (byteSize before) first pieces) =
      some (first ++ pieces.flatMap (inserted ++ ·)) := by
  -- what has been copied already grows by one piece at each border
  induction pieces generalizing before first with
  | nil =>
    have hslice := slice?_append before first []
    rw [List.append_nil] at hslice
    rw [borders_nil, spliceFrom?, byteSize_append, List.flatten_nil, List.append_nil, hslice,
      List.flatMap_nil, List.append_nil]
  | cons piece pieces ih =>
    have hrest := ih (before ++ first) piece
    rw [byteSize_append, List.append_assoc] at hrest
    rw [borders_cons, List.flatten_cons, spliceFrom?, slice?_append, Option.bind_some, hrest,
      Option.map_some, List.flatMap_cons, List.append_assoc, List.append_assoc]

/-- **Splicing.**  At the borders of its pieces something can be put into any text. -/
theorem splice?_borders (inserted first : List Char) (pieces : List (List Char)) :
    splice? inserted (first ++ pieces.flatten) (borders 0 first pieces) =
      some (first ++ pieces.flatMap (inserted ++ ·)) :=
  spliceFrom?_borders inserted [] first pieces

/-- A character of two bytes cannot be cut. -/
example : splice? ['&', ' '] ['é', 'a'] [1] = none := by decide

end SchemaCatalog.Text

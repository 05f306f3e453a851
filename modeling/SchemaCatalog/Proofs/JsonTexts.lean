/-
# The texts that are JSON

The grammar of the standard, as a relation between syntax trees and the texts they are written as.
The grammar knows no limits.  A tree has a value for a reader within its limits: so many arrays and
objects may be open at once, numbers must be within the range of double precision, and halves of
sixteen-bit pairs must not stand alone.  A text is read exactly if it is written for a tree that has
a value, and that value is read.
-/
import SchemaCatalog.Proofs.Layouts

namespace SchemaCatalog.Json

open Text (hexFrom? hexDigit? isLeadingHalf isTrailingHalf joinHalves)

/-! ## Strings -/

/-- What a string holds between its quotes: a character for itself, an escape of one letter, or a
sixteen-bit unit written with four digits. -/
inductive Piece where
  | plain (c : Char)
  | letter (c : Char)
  | unit (a b c d : Char)

namespace Piece

/-- How a piece is written. -/
def chars : Piece → List Char
  | plain c => [c]
  | letter c => ['\\', c]
  | unit a b c d => ['\\', 'u', a, b, c, d]

/-- The pieces that the grammar allows. -/
inductive IsProper : Piece → Prop
  | plain {c : Char} (low : 0x20 ≤ c.toNat) (quote : c ≠ '"') (slash : c ≠ '\\') :
      IsProper (.plain c)
  | letter {c : Char} (h : c ∈ ['"', '\\', '/', 'b', 'f', 'n', 'r', 't']) : IsProper (.letter c)
  | unit {a b c d : Char} (h : ∀ x ∈ [a, b, c, d], (hexDigit? x).isSome) :
      IsProper (.unit a b c d)

end Piece

/-- The value of the digits of a unit. -/
def unitValue (a b c d : Char) : Nat := (hexFrom? 0 [a, b, c, d]).getD 0

/-- The characters that pieces stand for, unless a half of a pair stands alone. -/
def text? : List Piece → Option (List Char)
  | [] => some []
  | .plain c :: ps => (text? ps).map (c :: ·)
  | .letter c :: ps => (simpleEscape? c).bind fun d => (text? ps).map (d :: ·)
  | .unit a b c d :: ps =>
    if isTrailingHalf (unitValue a b c d) then none
    else if isLeadingHalf (unitValue a b c d) then
      match ps with
      | .unit e f g h :: ps =>
        if isTrailingHalf (unitValue e f g h) then
          (text? ps).map (joinHalves (unitValue a b c d) (unitValue e f g h) :: ·)
        else none
      | _ => none
    else (text? ps).map (Char.ofNat (unitValue a b c d) :: ·)

/-! ## Numbers -/

/-- A row of at least one digit. -/
structure IsDigits (ds : List Char) : Prop where
  ne_nil : ds ≠ []
  isDigit : ∀ d ∈ ds, d.isDigit = true

/-- The digits before the point: no zero stands before another digit. -/
inductive IsWhole : List Char → Prop
  | zero : IsWhole ['0']
  | digits {d : Char} {ds : List Char} (h : IsDigits (d :: ds)) (ne : d ≠ '0') : IsWhole (d :: ds)

/-- A point and the digits behind it, or nothing. -/
inductive IsFraction : List Char → Prop
  | nothing : IsFraction []
  | digits {ds : List Char} (h : IsDigits ds) : IsFraction ('.' :: ds)

/-- An exponent, or nothing. -/
inductive IsExponent : List Char → Prop
  | nothing : IsExponent []
  | digits {mark : Char} {sign ds : List Char} (hmark : mark = 'e' ∨ mark = 'E')
      (hsign : sign = [] ∨ sign = ['+'] ∨ sign = ['-']) (h : IsDigits ds) :
      IsExponent (mark :: (sign ++ ds))

/-- The texts of numbers. -/
inductive IsNumber : List Char → Prop
  | parts {sign whole fraction exponent : List Char} (hsign : sign = [] ∨ sign = ['-'])
      (hwhole : IsWhole whole) (hfraction : IsFraction fraction) (hexponent : IsExponent exponent) :
      IsNumber (sign ++ whole ++ fraction ++ exponent)

/-! ## Trees -/

/-- A JSON value as it is written. -/
inductive Tree where
  | null
  | bool (b : Bool)
  | number (text : List Char)
  | string (pieces : List Piece)
  | array (items : List Tree)
  | object (members : List (List Piece × Tree))

/-- A string with its quotes. -/
def quotedPieces (ps : List Piece) : List Char := '"' :: (ps.flatMap Piece.chars ++ ['"'])

/-- White space, which may stand before and behind each part of a value. -/
def IsSpace (ws : List Char) : Prop := ws.all isBlank = true

mutual

/-- The texts of a tree, from its first character to its last. -/
inductive Writes : Tree → List Char → Prop
  | null : Writes .null "null".toList
  | bool (b : Bool) : Writes (.bool b) (if b then "true" else "false").toList
  | number {cs : List Char} (h : IsNumber cs) : Writes (.number cs) cs
  | string {ps : List Piece} (h : ∀ p ∈ ps, p.IsProper) : Writes (.string ps) (quotedPieces ps)
  | emptyArray {ws : List Char} (h : IsSpace ws) : Writes (.array []) ('[' :: (ws ++ [']']))
  | array {ts : List Tree} {cs : List Char} (h : WritesItems ts cs) :
      Writes (.array ts) ('[' :: (cs ++ [']']))
  | emptyObject {ws : List Char} (h : IsSpace ws) : Writes (.object []) ('{' :: (ws ++ ['}']))
  | object {ms : List (List Piece × Tree)} {cs : List Char} (h : WritesMembers ms cs) :
      Writes (.object ms) ('{' :: (cs ++ ['}']))

/-- The texts of items with commas between them. -/
inductive WritesItems : List Tree → List Char → Prop
  | last {t : Tree} {before cs behind : List Char} (hbefore : IsSpace before) (h : Writes t cs)
      (hbehind : IsSpace behind) : WritesItems [t] (before ++ (cs ++ behind))
  | more {t : Tree} {ts : List Tree} {before cs behind others : List Char}
      (hbefore : IsSpace before) (h : Writes t cs) (hbehind : IsSpace behind)
      (hothers : WritesItems ts others) :
      WritesItems (t :: ts) (before ++ (cs ++ (behind ++ ',' :: others)))

/-- The texts of members with commas between them. -/
inductive WritesMembers : List (List Piece × Tree) → List Char → Prop
  | last {ps : List Piece} {t : Tree} {outer inner before cs behind : List Char}
      (houter : IsSpace outer) (hps : ∀ p ∈ ps, p.IsProper) (hinner : IsSpace inner)
      (hbefore : IsSpace before) (h : Writes t cs) (hbehind : IsSpace behind) :
      WritesMembers [(ps, t)]
        (outer ++ (quotedPieces ps ++ (inner ++ ':' :: (before ++ (cs ++ behind)))))
  | more {ps : List Piece} {t : Tree} {ms : List (List Piece × Tree)}
      {outer inner before cs behind others : List Char}
      (houter : IsSpace outer) (hps : ∀ p ∈ ps, p.IsProper) (hinner : IsSpace inner)
      (hbefore : IsSpace before) (h : Writes t cs) (hbehind : IsSpace behind)
      (hothers : WritesMembers ms others) :
      WritesMembers ((ps, t) :: ms) (outer ++ (quotedPieces ps ++
        (inner ++ ':' :: (before ++ (cs ++ (behind ++ ',' :: others))))))

end

/-- The texts that the standard takes for JSON, with the trees they are written for. -/
def Tree.IsTextOf (t : Tree) (text : String) : Prop :=
  ∃ before cs behind, text.toList = before ++ (cs ++ behind) ∧ IsSpace before ∧ Writes t cs ∧
    IsSpace behind

/-! ## Values -/

mutual

/-- The value of a tree, if a reader has it that opens so many arrays and objects at once. -/
def Tree.value? : Nat → Tree → Option Json
  | _, .null => some .null
  | _, .bool b => some (.bool b)
  | _, .number cs =>
    if (NumberParts.ofChars cs).value?.isSome then some (.number (String.ofList cs)) else none
  | _, .string ps => (text? ps).map fun cs => .string (String.ofList cs)
  | 0, .array _ => none
  | levels + 1, .array ts => (items? levels ts).map .array
  | 0, .object _ => none
  | levels + 1, .object ms => (members? levels [] ms).map .object

/-- The values of items. -/
def items? : Nat → List Tree → Option (List Json)
  | _, [] => some []
  | levels, t :: ts => (t.value? levels).bind fun v => (items? levels ts).map (v :: ·)

/-- The values of members behind others: of those with the same key the last one counts. -/
def members? : Nat → List (String × Json) → List (List Piece × Tree) → Option (List (String × Json))
  | _, read, [] => some read
  | levels, read, (ps, t) :: ms =>
    (text? ps).bind fun key => (t.value? levels).bind fun v =>
      members? levels (setMember (String.ofList key) v read) ms

end

end SchemaCatalog.Json

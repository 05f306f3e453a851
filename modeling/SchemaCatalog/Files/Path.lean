/-
# Paths

A path is made up of names between slashes.  A name that is empty or a dot stays in its
directory, two dots lead to the one above.  Names and paths are bytes; nothing says that
these encode a text.
-/
import SchemaCatalog.Text.Basic
import SchemaCatalog.Text.GraphemeExtend
import SchemaCatalog.Text.Unprintable
import SchemaCatalog.Text.Utf8

namespace SchemaCatalog.Files

open Text (encode)

/-- A name that an entry of a directory may have. -/
abbrev FileName : Type := List UInt8

/-- A path to a file or a directory. -/
abbrev Path : Type := List UInt8

/-! ## Names of a path -/

/-- The byte between two names of a path. -/
def slash : UInt8 := 0x2F

/-- The byte before an extension. -/
def dot : UInt8 := 0x2E

/-- The names of a path, with the empty ones. -/
def components (path : Path) : List FileName := Text.pieces slash path

/-- Whether a path starts from the top and not from the working directory. -/
def isAbsolute (path : Path) : Bool := path.head? == some slash

/-- The path of an entry of a directory. -/
def join (path : Path) (name : FileName) : Path :=
  if path.getLast? == some slash then path ++ name else path ++ slash :: name

/-- Whether a name leads anywhere else. -/
def isStep (name : FileName) : Bool := name ≠ [] && name ≠ [dot]

/-- The last name of a path, if the path ends in one. -/
def fileName? (path : Path) : Option FileName :=
  match ((components path).filter isStep).getLast? with
  | some n => if n = [dot, dot] then none else some n
  | none => none

/-- What follows the last dot of a name, unless the name has none but at its start. -/
def extensionOfName (name : FileName) : Option (List UInt8) :=
  let behind := (name.reverse.takeWhile (· != dot)).reverse
  if behind.length + 1 < name.length then some behind else none

/-- The extension of the file that a path leads to. -/
def extension? (path : Path) : Option (List UInt8) :=
  (fileName? path).bind extensionOfName

/-! ## Paths that lead the same way -/

/-- The names that tell a path from others.  A name that leads nowhere else counts
only as the dot that a path may start with. -/
def steps (path : Path) : List FileName :=
  match components path with
  | [] => []
  | name :: names =>
    if name = [dot] then name :: names.filter isStep else (name :: names).filter isStep

/-- Whether two paths take the same steps from the same place. -/
def sameWay (p q : Path) : Bool := isAbsolute p == isAbsolute q && steps p == steps q

/-- A path leads the way that it leads. -/
@[simp] theorem sameWay_self (p : Path) : sameWay p p = true := by
  simp [sameWay]

/-! ## Paths in reports -/

/-- The digits of a number in hexadecimal. -/
def hexDigits (n : Nat) : List Char := Nat.toDigits 16 n

/-- Whether a character would not be seen for itself between other characters. -/
def isHidden (c : Char) : Bool := Text.isGraphemeExtend c || Text.isUnprintable c

/-- A character between two quotes; one that would not be seen is written by
number. -/
def escapeChar (c : Char) : List Char :=
  match c with
  | '"' => ['\\', '"']
  | '\\' => ['\\', '\\']
  | '\t' => ['\\', 't']
  | '\n' => ['\\', 'n']
  | '\r' => ['\\', 'r']
  | '\x00' => ['\\', '0']
  | c =>
    if isHidden c then '\\' :: 'u' :: '{' :: (hexDigits c.toNat ++ ['}'])
    else [c]

/-- A byte that belongs to no character, by number. -/
def escapeByte (b : UInt8) : List Char :=
  '\\' :: 'x' :: (hexDigits b.toNat).map Char.toUpper

/-- A path between quotes. -/
def shown (path : Path) : String :=
  let inner := (Text.stretches path).flatMap fun s =>
    s.text.flatMap escapeChar ++ s.bad.flatMap escapeByte
  String.ofList ('"' :: (inner ++ ['"']))

/-- A list of paths between quotes. -/
def shownList (paths : List Path) : String :=
  "[" ++ ", ".intercalate (paths.map shown) ++ "]"

end SchemaCatalog.Files

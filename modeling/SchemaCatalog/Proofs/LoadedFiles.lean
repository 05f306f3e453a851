/-
# What files are loaded as

A file contributes the text that its bytes encode, without the byte-order mark at its start if
there is one.  Loading fails for the first path that does not lead to a file with a text.
Otherwise the number of the files and the name of the first decide what they are loaded as, and
nothing counts but their texts.
-/
import SchemaCatalog.Files.Loading
import SchemaCatalog.Proofs.Encoding
import SchemaCatalog.Proofs.JsonAcceptance
import Mathlib.Data.List.Forall2

namespace SchemaCatalog.Files

open Text (encode)

variable {fs : FileSystem} {path : Path} {text : String}

/-! ## The text of a file -/

/-- The text that a file contributes: what its bytes encode, or what stands behind the byte-order
mark at the start of that. -/
inductive Holds (fs : FileSystem) (path : Path) : String → Prop
  | plain {text : String} (h : fs.bytesAt? path = some (encode text))
      (unmarked : text.toList.head? ≠ some '\uFEFF') : Holds fs path text
  | marked {text : String} (h : fs.bytesAt? path = some (encode ("\uFEFF" ++ text))) :
      Holds fs path text

/-- What texts are loaded as. -/
def load (paths : List Path) (texts : List String) : Except Error Source :=
  if isAnswer paths then
    match Json.ofText (texts.headD "") with
    | .ok v => .ok (.introspection v)
    | .error e => .error (.decoding (.notJson e))
  else .ok (sourceOfTexts texts)

section Nested

open Json (Tree IsSpace Writes WritesItems readValue readItems)

end Nested

end SchemaCatalog.Files

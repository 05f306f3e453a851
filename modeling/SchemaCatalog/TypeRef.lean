/-
# References to types

A field or an argument refers to a type by its name, inside any number of lists;
each list, and the name itself, may be required, that is, never null.
-/
import SchemaCatalog.Name

namespace SchemaCatalog

/-- A reference to a type. -/
inductive TypeRef where
  /-- The type of this name. -/
  | named (name : Name) (required : Bool)
  /-- A list whose elements have a type of their own. -/
  | list (element : TypeRef) (required : Bool)
  deriving DecidableEq

namespace TypeRef

/-- The name inside all lists. -/
def innermost : TypeRef → Name
  | named n _ => n
  | list t _ => t.innermost

/-- Whether the outermost layer is required. -/
def isRequired : TypeRef → Bool
  | named _ r => r
  | list _ r => r

/-- The number of lists around the name. -/
def depth : TypeRef → Nat
  | named _ _ => 0
  | list t _ => t.depth + 1

/-- The mark after a layer that is required. -/
def bang (required : Bool) : String := if required then "!" else ""

/-- How a reference is written. -/
def text : TypeRef → String
  | named n r => n.text ++ bang r
  | list t r => "[" ++ t.text ++ "]" ++ bang r

instance : ToString TypeRef := ⟨text⟩

end TypeRef

end SchemaCatalog

/-
# How types are used

A reference is a sequence of layers, from the outside inwards: "required" marks,
lists, and the name.  Walking along them with three flags gives the description
of the reference that a catalog holds.
-/
import SchemaCatalog.Catalog.Basic
import SchemaCatalog.TypeRef

namespace SchemaCatalog

/-- One layer of a reference to a type. -/
inductive Layer where
  | list
  | required
  | named (name : String)
  deriving DecidableEq

namespace Layer

/-- The layer of a "required" mark, if there is one. -/
def ofMark (isRequired : Bool) : List Layer := if isRequired then [required] else []

/-- The layers of a reference, the outermost first. -/
def ofTypeRef : TypeRef → List Layer
  | .named n r => ofMark r ++ [named n.text]
  | .list t r => ofMark r ++ list :: ofTypeRef t

/-- What is known of a reference after some of its layers. -/
structure Walk where
  atTop : Bool
  insideList : Bool
  requiredAtTop : Bool
  requiredInside : Bool
  typeName : Option String

/-- Nothing is known before the first layer. -/
def Walk.start : Walk := ⟨true, false, false, false, none⟩

/-- One layer further in. -/
def Walk.step (w : Walk) : Layer → Walk
  | required =>
    if w.atTop then { w with requiredAtTop := true, atTop := false }
    else if w.insideList then { w with requiredInside := true }
    else w
  | list => { w with insideList := true, atTop := false }
  | named n => { w with typeName := w.typeName <|> some n, atTop := false }

/-- What the walk has found out. -/
def Walk.found (w : Walk) : TypeUse :=
  ⟨w.typeName.getD "", !w.requiredAtTop, w.insideList, w.requiredInside⟩

/-- The description of a reference with these layers. -/
def describe (layers : List Layer) : TypeUse :=
  (layers.foldl Walk.step Walk.start).found

end Layer

/-- The description of a reference to a type. -/
def TypeUse.ofTypeRef (t : TypeRef) : TypeUse :=
  Layer.describe (Layer.ofTypeRef t)

end SchemaCatalog

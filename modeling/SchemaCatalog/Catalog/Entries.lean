/-
# Entries of types

What the nodes of a declaration say together.  The node that declares a type
decides what kind of list its entry has; every node with a list of that kind
adds to it, in document order.
-/
import SchemaCatalog.Catalog.TypeUse
import SchemaCatalog.Document.Outline

namespace SchemaCatalog

open Document (Directive InputValue Field Content TypeNode Declaration Outline)

/-! ## Fields -/

/-- Whether the directive that marks something as deprecated is among those applied. -/
def marksDeprecated (ds : List Directive) : Bool :=
  ds.any fun d => d.name.text = "deprecated"

/-- The entry of an argument. -/
def ArgumentEntry.ofInputValue (v : InputValue) : ArgumentEntry :=
  ⟨v.name.text, .ofTypeRef v.type, marksDeprecated v.directives⟩

/-- The entry of a field of an object or an interface. -/
def FieldEntry.ofField (f : Field) : FieldEntry :=
  ⟨f.name.text, .ofTypeRef f.type, f.arguments.map .ofInputValue, marksDeprecated f.directives⟩

/-- The entry of a field of an input object, which takes no arguments. -/
def FieldEntry.ofInputValue (v : InputValue) : FieldEntry :=
  ⟨v.name.text, .ofTypeRef v.type, [], marksDeprecated v.directives⟩

/-! ## Lists of a node -/

/-- The fields of a node, if its kind has any. -/
def fieldsOf? : Content → Option (List FieldEntry)
  | .object _ fs | .interface _ fs => some (fs.map .ofField)
  | .inputObject vs => some (vs.map .ofInputValue)
  | _ => none

/-- The values of a node, if its kind has any. -/
def valuesOf? : Content → Option (List String)
  | .enum vs => some (vs.map (·.name.text))
  | _ => none

/-- The members of a node, if its kind has any. -/
def membersOf? : Content → Option (List String)
  | .union ms => some (ms.map Name.text)
  | _ => none

/-- All that the nodes contribute to a list, one after the other. -/
def gather {α : Type} (part : Content → Option (List α)) (ns : List TypeNode) : List α :=
  (ns.filterMap fun n => part n.content).flatten

/-- All that the nodes contribute, if the node that declares the type has such a
list at all. -/
def gatherFor {α : Type} (part : Content → Option (List α)) (d : Declaration) : List α :=
  if (part d.primary.content).isSome then gather part d.nodes else []

/-! ## Entries -/

/-- The entry of a type, before any other type is taken into account. -/
def TypeEntry.ofDeclaration (d : Declaration) : TypeEntry where
  kind := d.primary.kind
  description := d.primary.description
  fields := gatherFor fieldsOf? d
  values := gatherFor valuesOf? d
  unionMembers := gatherFor membersOf? d
  interfaces := d.nodes.flatMap fun n => n.content.interfaces.map Name.text

/-- The entries of all types of a document. -/
def entriesOf (o : Outline) : Table TypeEntry :=
  o.types.mapWithKey fun _ d => .ofDeclaration d

/-- What is reported about the entries. -/
def entriesLog (o : Outline) : Log :=
  (o.types.rows.filter fun e => !e.2.additions.isEmpty).map (fun e =>
    .trace ("Folded " ++ toString e.2.additions.length ++ " extension(s) into `" ++ e.1 ++ "`."))
  ++ [.debug ("Built " ++ toString o.types.size ++ " type record(s).")]

end SchemaCatalog

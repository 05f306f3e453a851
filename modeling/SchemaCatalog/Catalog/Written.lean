/-
# Catalogs in writing

A catalog is written as one JSON object with a member for each type.  The schema
definition comes first, under a key that a type of that name takes from it.
-/
import SchemaCatalog.Catalog.Basic
import SchemaCatalog.Json.Writer

namespace SchemaCatalog

/-! ## Members of types -/

/-- The members that describe a type reference. -/
def TypeUse.members (t : TypeUse) : List (String × Json) :=
  [("type", .string t.typeName), ("isNullable", .bool t.isNullable), ("isList", .bool t.isList),
    ("listElementsNonNull", .bool t.hasRequiredElements)]

/-- An argument in writing. -/
def ArgumentEntry.toJson (a : ArgumentEntry) : Json :=
  .object (("name", .string a.name) :: a.type.members ++ [("isDeprecated", .bool a.isDeprecated)])

/-- A field in writing. -/
def FieldEntry.toJson (f : FieldEntry) : Json :=
  .object (("name", .string f.name) :: f.type.members ++
    [("arguments", .array (f.arguments.map ArgumentEntry.toJson)),
      ("isDeprecated", .bool f.isDeprecated)])

/-! ## Types -/

/-- A member that is left out if there is nothing to write. -/
def optionalMember (key : String) : Option Json → List (String × Json)
  | some v => [(key, v)]
  | none => []

/-- A type in writing. -/
def TypeEntry.toJson (r : TypeEntry) : Json :=
  .object (("kind", .string r.kind.text) :: optionalMember "description" (r.description.map .string)
    ++ [("fields", .array (r.fields.map FieldEntry.toJson)),
      ("values", .ofStrings r.values),
      ("unionMembers", .ofStrings r.unionMembers),
      ("implementedInterfaces", .ofStrings r.interfaces)])

/-! ## Operations -/

/-- A binding in writing. -/
def Binding.toJson (b : Binding) : Json :=
  .object [("type", .string b.kind.text), ("operation", .string b.operation.text),
    ("field", .string b.typeName)]

/-- The bindings of a schema definition in writing. -/
def Bindings.toJson (b : Bindings) : Json :=
  .object (optionalMember "query" (b.query.map Binding.toJson)
    ++ optionalMember "mutation" (b.mutation.map Binding.toJson)
    ++ optionalMember "subscription" (b.subscription.map Binding.toJson))

/-! ## Catalogs -/

/-- The key of the schema definition. -/
def schemaKey : String := "schemaDefinition"

namespace Catalog

/-- The schema definition as a member of the catalog, unless a type has its key. -/
def schemaMember (c : Catalog) : List (String × Json) :=
  if c.types.contains schemaKey then []
  else optionalMember schemaKey (c.bindings.map Bindings.toJson)

/-- A catalog in writing. -/
def toJson (c : Catalog) : Json :=
  .object (c.schemaMember ++ c.types.rows.map fun e => (e.1, e.2.toJson))

end Catalog

end SchemaCatalog

/-
# Catalogs

A catalog lists the types of a schema by name.  Every reference from one type to
another is by name, so a catalog is flat however the types hang together.
-/
import SchemaCatalog.Shape
import SchemaCatalog.Table

namespace SchemaCatalog

/-! ## Fields and arguments -/

/-- How a field or an argument uses a type: the name inside all lists, and what is
known of the lists and of what may be null. -/
structure TypeUse where
  typeName : String
  isNullable : Bool
  isList : Bool
  /-- Whether the elements of a list, or lists among them, are required. -/
  hasRequiredElements : Bool
  deriving DecidableEq

/-- An argument of a field. -/
structure ArgumentEntry where
  name : String
  type : TypeUse
  isDeprecated : Bool
  deriving DecidableEq

/-- A field of an object, an interface or an input object. -/
structure FieldEntry where
  name : String
  type : TypeUse
  arguments : List ArgumentEntry
  isDeprecated : Bool
  deriving DecidableEq

/-! ## Types -/

/-- What a catalog says of one type.  An interface lists both the interfaces that
it declares to implement and the types that declare to implement it. -/
structure TypeEntry where
  kind : EntryKind
  description : Option String
  fields : List FieldEntry
  values : List String
  unionMembers : List String
  interfaces : List String
  deriving DecidableEq

namespace TypeEntry

/-- The first field of a given name. -/
def field? (r : TypeEntry) (name : String) : Option FieldEntry :=
  r.fields.find? fun f => f.name = name

/-- Whether a name is among the interfaces of a type. -/
def implements (r : TypeEntry) (name : String) : Bool :=
  name ∈ r.interfaces

/-- The entry with one more name among its interfaces. -/
def addInterface (r : TypeEntry) (name : String) : TypeEntry :=
  { r with interfaces := r.interfaces ++ [name] }

end TypeEntry

/-! ## Operations -/

/-- The type that an operation starts from. -/
structure Binding where
  kind : EntryKind
  operation : Operation
  typeName : String
  deriving DecidableEq

/-- The operations that a schema definition binds. -/
structure Bindings where
  query : Option Binding
  mutation : Option Binding
  subscription : Option Binding
  deriving DecidableEq

namespace Bindings

/-- No operation is bound. -/
def empty : Bindings := ⟨none, none, none⟩

/-- The binding of an operation. -/
def get (b : Bindings) : Operation → Option Binding
  | .query => b.query
  | .mutation => b.mutation
  | .subscription => b.subscription

/-- Binds an operation to a type. -/
def bind (b : Bindings) (o : Operation) (typeName : String) : Bindings :=
  match o with
  | .query => { b with query := some ⟨.operation, o, typeName⟩ }
  | .mutation => { b with mutation := some ⟨.operation, o, typeName⟩ }
  | .subscription => { b with subscription := some ⟨.operation, o, typeName⟩ }

/-- The operation that is bound has the type that it is bound to; the others keep
theirs. -/
theorem get_bind (b : Bindings) (o p : Operation) (typeName : String) :
    (b.bind o typeName).get p = if p = o then some ⟨.operation, o, typeName⟩ else b.get p := by
  cases o <;> cases p <;> simp [bind, get]

@[simp] theorem get_empty (o : Operation) : empty.get o = none := by
  cases o <;> rfl

end Bindings

/-! ## Catalogs -/

/-- The types of a schema by name, the directives that it defines, and its
operations if a schema definition tells them. -/
structure Catalog where
  types : Table TypeEntry
  directiveNames : List String
  bindings : Option Bindings

namespace Catalog

/-- The entry of a type. -/
def get? (c : Catalog) (name : String) : Option TypeEntry := c.types.get? name

/-- The number of types. -/
def size (c : Catalog) : Nat := c.types.size

/-- Whether two catalogs say the same.  The order of the types does not count. -/
def agrees (a b : Catalog) : Bool :=
  a.types.agrees b.types && a.directiveNames = b.directiveNames && a.bindings = b.bindings

end Catalog

end SchemaCatalog

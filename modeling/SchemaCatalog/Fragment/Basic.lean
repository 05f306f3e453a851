/-
# Fragments

A fragment is a part of a schema that is to be merged with others.  Unlike in a
catalogued document its values are understood, since they are written anew.
-/
import SchemaCatalog.TypeRef
import SchemaCatalog.Shape
import SchemaCatalog.Number.Binary64

namespace SchemaCatalog.Fragment

/-! ## Values and directives -/

/-- A value.  The fields of an object are in the order of their names, without
repetition. -/
inductive Value where
  | variable (name : Name)
  | int (value : Int)
  | float (value : Binary64)
  | string (value : String)
  | word (name : Name)
  | list (items : List Value)
  | object (fields : List (Name × Value))

/-- A directive that is applied to something, with its arguments. -/
structure Directive where
  name : Name
  arguments : List (Name × Value)

/-! ## Members of types -/

/-- An argument of a field or of a directive, or a field of an input object. -/
structure InputValue where
  description : Option String
  name : Name
  type : TypeRef
  default : Option Value
  directives : List Directive

/-- A field of an object or of an interface. -/
structure Field where
  description : Option String
  name : Name
  arguments : List InputValue
  type : TypeRef
  directives : List Directive

/-- A value of an enum. -/
structure EnumValue where
  description : Option String
  name : Name
  directives : List Directive

/-! ## Definitions -/

/-- What is said of a type besides its name and its directives. -/
inductive Content where
  | enum (values : List EnumValue)
  | inputObject (fields : List InputValue)
  | interface (interfaces : List Name) (fields : List Field)
  | object (interfaces : List Name) (fields : List Field)
  | scalar
  | union (members : List Name)

/-- The shape of the type that is described. -/
def Content.shape : Content → Shape
  | enum _ => .enum
  | inputObject _ => .inputObject
  | interface _ _ => .interface
  | object _ _ => .object
  | scalar => .scalar
  | union _ => .union

/-- The definition of a type. -/
structure TypeDefinition where
  description : Option String
  name : Name
  directives : List Directive
  content : Content

/-- An addition to a type. -/
structure TypeExtension where
  name : Name
  directives : List Directive
  content : Content

/-- The definition of the schema: the type that each operation starts from, if it
has one. -/
structure SchemaDefinition where
  directives : List Directive
  query : Option Name
  mutation : Option Name
  subscription : Option Name

/-- The definition of a directive. -/
structure DirectiveDefinition where
  description : Option String
  name : Name
  arguments : List InputValue
  repeatable : Bool
  locations : List Name

/-- A definition of a fragment. -/
inductive Definition where
  | schema (s : SchemaDefinition)
  | type (t : TypeDefinition)
  | extension (e : TypeExtension)
  | directive (d : DirectiveDefinition)

namespace SchemaDefinition

/-- The type that an operation starts from. -/
def root (s : SchemaDefinition) : Operation → Option Name
  | .query => s.query
  | .mutation => s.mutation
  | .subscription => s.subscription

/-- Lets an operation start from a type. -/
def setRoot (s : SchemaDefinition) (o : Operation) (n : Name) : SchemaDefinition :=
  match o with
  | .query => { s with query := some n }
  | .mutation => { s with mutation := some n }
  | .subscription => { s with subscription := some n }

end SchemaDefinition

end SchemaCatalog.Fragment

/-
# Schema documents

A document is a sequence of definitions.  Those that say something about the
schema are kept with their content; those that do not, such as queries, leave
only their trace.
-/
import SchemaCatalog.TypeRef
import SchemaCatalog.Shape

namespace SchemaCatalog.Document

/-! ## Values and directives -/

/-- A value, its numbers and strings kept as they are written. -/
inductive Value where
  | variable (name : Name)
  | number (text : String)
  | string (text : String)
  | word (name : Name)
  | list (items : List Value)
  | object (fields : List (Name × Option Value))

/-- A directive that is applied to something, with its arguments. -/
structure Directive where
  name : Name
  arguments : List (Name × Option Value)

/-! ## Members of types -/

/-- An argument of a field or of a directive, or a field of an input object. -/
structure InputValue where
  description : Option String
  name : Name
  type : TypeRef
  default : Option Value
  directives : List Directive

/-- A field of an object or of an interface. -/
structure Field where
  description : Option String
  name : Name
  arguments : List InputValue
  type : TypeRef
  directives : List Directive

/-- A value of an enum. -/
structure EnumValue where
  description : Option String
  name : Name
  directives : List Directive

/-! ## Definitions -/

/-- What a node says about its type. -/
inductive Content where
  | enum (values : List EnumValue)
  | inputObject (fields : List InputValue)
  | interface (interfaces : List Name) (fields : List Field)
  | object (interfaces : List Name) (fields : List Field)
  | scalar
  | union (members : List Name)

namespace Content

/-- The shape of the type that is described. -/
def shape : Content → Shape
  | enum _ => .enum
  | inputObject _ => .inputObject
  | interface _ _ => .interface
  | object _ _ => .object
  | scalar => .scalar
  | union _ => .union

/-- The interfaces that a node declares to implement. -/
def interfaces : Content → List Name
  | interface is _ | object is _ => is
  | _ => []

end Content

/-- Whether a node defines its type or adds to it.  Only a definition can be
described in words. -/
inductive Role where
  | definition (description : Option String)
  | extension

/-- A node that defines a type or adds to one. -/
structure TypeNode where
  role : Role
  name : Name
  directives : List Directive
  content : Content

namespace TypeNode

/-- Whether a node adds to a type instead of defining it. -/
def isExtension (n : TypeNode) : Bool :=
  match n.role with
  | .definition _ => false
  | .extension => true

/-- The description of a type in words. -/
def description (n : TypeNode) : Option String :=
  match n.role with
  | .definition d => d
  | .extension => none

/-- The kind of a node. -/
def kind (n : TypeNode) : EntryKind :=
  match n.role with
  | .definition _ => .definition n.content.shape
  | .extension => .extension n.content.shape

end TypeNode

/-- An entry of a schema definition: an operation and the type it starts from,
whose name may be missing. -/
structure RootOperation where
  operation : Operation
  typeName : Option Name

/-- The definition of the schema as a whole. -/
structure SchemaNode where
  description : Option String
  directives : List Directive
  operations : List RootOperation

/-- The definition of a directive. -/
structure DirectiveNode where
  description : Option String
  name : Name
  arguments : List InputValue
  repeatable : Bool
  locations : List Name

/-- Definitions that say nothing about the types of a schema. -/
inductive Aside where
  | fragment
  | operation
  | schemaExtension
  deriving DecidableEq

/-- What an ignored definition is called. -/
def Aside.text : Aside → String
  | fragment => "fragment definition"
  | operation => "operation definition"
  | schemaExtension => "schema extension"

/-- A top-level definition. -/
inductive Definition where
  | schema (s : SchemaNode)
  | type (t : TypeNode)
  | directive (d : DirectiveNode)
  | aside (a : Aside)

end SchemaCatalog.Document

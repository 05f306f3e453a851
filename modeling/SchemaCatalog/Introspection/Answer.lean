/-
# Answers to an introspection query

What a server tells about its schema, as it tells it: names may be missing, and
wrapped types are nested in each other to any depth.
-/

namespace SchemaCatalog.Introspection

/-! ## Kinds -/

/-- The kind of a type, or of a wrapper around one. -/
inductive Kind where
  | scalar
  | object
  | interface
  | union
  | enum
  | inputObject
  | list
  | nonNull
  deriving DecidableEq

/-- The kind of a given name. -/
def Kind.ofText? (text : String) : Option Kind :=
  if text = "SCALAR" then some scalar
  else if text = "OBJECT" then some object
  else if text = "INTERFACE" then some interface
  else if text = "UNION" then some union
  else if text = "ENUM" then some enum
  else if text = "INPUT_OBJECT" then some inputObject
  else if text = "LIST" then some list
  else if text = "NON_NULL" then some nonNull
  else none

/-! ## Parts of an answer -/

/-- A reference to a type: a name, or a wrapper around another reference. -/
inductive RawRef where
  | mk (kind : Kind) (name : Option String) (ofType : Option RawRef)

/-- A mention of a type by name. -/
structure RawName where
  name : Option String

/-- An argument, or a field of an input object. -/
structure RawInput where
  name : String
  description : Option String
  type : RawRef
  defaultValue : Option String
  isDeprecated : Bool
  deprecationReason : Option String

/-- A field of an object or an interface. -/
structure RawField where
  name : String
  description : Option String
  args : List RawInput
  type : RawRef
  isDeprecated : Bool
  deprecationReason : Option String

/-- A value of an enum. -/
structure RawEnumValue where
  name : String
  description : Option String
  isDeprecated : Bool
  deprecationReason : Option String

/-- A type with all that an answer can say of it; which parts count depends on its
kind. -/
structure RawType where
  kind : Kind
  name : Option String
  description : Option String
  fields : Option (List RawField)
  inputFields : Option (List RawInput)
  interfaces : Option (List RawName)
  enumValues : Option (List RawEnumValue)
  possibleTypes : Option (List RawName)
  isOneOf : Option Bool

/-- A directive. -/
structure RawDirective where
  name : String
  description : Option String
  args : List RawInput
  locations : List String
  isRepeatable : Bool

/-- A schema. -/
structure RawSchema where
  queryType : RawName
  mutationType : Option RawName
  subscriptionType : Option RawName
  types : List RawType
  directives : List RawDirective

/-- A whole answer, which may hold no schema. -/
structure Answer where
  schema : Option RawSchema

end SchemaCatalog.Introspection

/-
# Kinds of types and operations

The six shapes that a type can have, the kinds of nodes that describe one, and
the three operations that a schema can offer.
-/

namespace SchemaCatalog

/-! ## Shapes of types -/

/-- What a type is made of. -/
inductive Shape where
  | enum
  | inputObject
  | interface
  | object
  | scalar
  | union
  deriving DecidableEq

namespace Shape

/-- The shape as the first part of the name of a node kind. -/
def text : Shape → String
  | enum => "Enum"
  | inputObject => "InputObject"
  | interface => "Interface"
  | object => "Object"
  | scalar => "Scalar"
  | union => "Union"

/-- The shape in a sentence, with its article. -/
def phrase : Shape → String
  | enum => "an enum"
  | inputObject => "an input object"
  | interface => "an interface"
  | object => "an object"
  | scalar => "a scalar"
  | union => "a union"

/-- The word that opens a definition of this shape. -/
def keyword : Shape → String
  | enum => "enum"
  | inputObject => "input"
  | interface => "interface"
  | object => "type"
  | scalar => "scalar"
  | union => "union"

/-- The shape whose definitions a word opens. -/
def ofKeyword? (word : String) : Option Shape :=
  if word = "enum" then some enum
  else if word = "input" then some inputObject
  else if word = "interface" then some interface
  else if word = "type" then some object
  else if word = "scalar" then some scalar
  else if word = "union" then some union
  else none

end Shape

/-! ## Kinds of nodes -/

/-- The kind of node that a description was taken from. -/
inductive EntryKind where
  /-- The definition of a type. -/
  | definition (shape : Shape)
  /-- An addition to a type that is defined elsewhere. -/
  | extension (shape : Shape)
  /-- The type that an operation starts from. -/
  | operation
  deriving DecidableEq

namespace EntryKind

/-- The name of a kind. -/
def text : EntryKind → String
  | definition s => s.text ++ "TypeDefinition"
  | extension s => s.text ++ "TypeExtension"
  | operation => "OperationTypeDefinition"

/-- Whether other types can implement what this kind of node describes. -/
def isInterface : EntryKind → Bool
  | definition .interface | extension .interface => true
  | _ => false

/-- Whether the node adds to a type instead of defining it. -/
def isExtension : EntryKind → Bool
  | extension _ => true
  | _ => false

instance : ToString EntryKind := ⟨text⟩

end EntryKind

/-! ## Operations -/

/-- What can be asked of a schema. -/
inductive Operation where
  | query
  | mutation
  | subscription
  deriving DecidableEq

namespace Operation

/-- The name of an operation. -/
def text : Operation → String
  | query => "query"
  | mutation => "mutation"
  | subscription => "subscription"

/-- The operation of a given name. -/
def ofText? (word : String) : Option Operation :=
  if word = "query" then some query
  else if word = "mutation" then some mutation
  else if word = "subscription" then some subscription
  else none

/-- An operation is found again by its name. -/
theorem ofText?_text (o : Operation) : ofText? o.text = some o := by
  cases o <;> decide

instance : ToString Operation := ⟨text⟩

end Operation

end SchemaCatalog

/-
# Places of directives

The places in documents at which a directive can be allowed to stand.
-/

namespace SchemaCatalog

/-- The names of the places at which a directive can be allowed to stand: first
those in executable definitions, then those in a schema. -/
def directiveLocations : List String :=
  ["QUERY", "MUTATION", "SUBSCRIPTION", "FIELD", "FRAGMENT_DEFINITION", "FRAGMENT_SPREAD",
    "INLINE_FRAGMENT", "VARIABLE_DEFINITION", "SCHEMA", "SCALAR", "OBJECT", "FIELD_DEFINITION",
    "ARGUMENT_DEFINITION", "INTERFACE", "UNION", "ENUM", "ENUM_VALUE", "INPUT_OBJECT",
    "INPUT_FIELD_DEFINITION"]

/-- Whether a word names such a place. -/
def isDirectiveLocation (word : String) : Bool := word ∈ directiveLocations

end SchemaCatalog

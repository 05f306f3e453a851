/-
# Decoding an answer

An answer comes as JSON.  Every member of an object has a type; most must be
there, some of them as `null`.  Members that are not known do not matter.  The
members that are there are decoded in the order of their keys, and then the
missing ones are looked for.
-/
import SchemaCatalog.Introspection.Answer
import SchemaCatalog.Json.Reader
import SchemaCatalog.Location

namespace SchemaCatalog.Introspection

/-! ## Faults -/

/-- Why a JSON value is no answer. -/
inductive DecodeError where
  /-- A value of another type was expected. -/
  | wrongType (found expected : String)
  /-- A member is not there. -/
  | missing (key : String)
  /-- A word is none of those that are known. -/
  | unknown (word : String) (expected : String)
  /-- The text is not JSON at all. -/
  | notJson (cause : Json.SyntaxError)
  deriving DecidableEq

/-- What decoding yields. -/
abbrev Decoded := Except DecodeError

/-- What a value is, for a report. -/
def describe : Json → String
  | .null => "null"
  | .bool b => "truth value `" ++ toString b ++ "`"
  | .number text => Json.reportNumber text
  | .string text => "string \"" ++ text ++ "\""
  | .array _ => "an array"
  | .object _ => "an object"

/-- Refuses a value of the wrong type. -/
def wrongType {α : Type} (v : Json) (expected : String) : Decoded α :=
  .error (.wrongType (describe v) expected)

/-! ## Values -/

/-- A string. -/
def asString : Json → Decoded String
  | .string s => .ok s
  | v => wrongType v "a string"

/-- A truth value. -/
def asBool : Json → Decoded Bool
  | .bool b => .ok b
  | v => wrongType v "a truth value"

/-- A value, or `null`. -/
def nullable {α : Type} (decode : Json → Decoded α) : Json → Decoded (Option α)
  | .null => .ok none
  | v => (decode v).map some

/-- A list of values. -/
def listOf {α : Type} (decode : Json → Decoded α) : Json → Decoded (List α)
  | .array vs => vs.mapM decode
  | v => wrongType v "an array"

/-- A word, as what it stands for; `known` tells which words are. -/
def asWord {α : Type} (ofText? : String → Option α) (known : String) (v : Json) : Decoded α := do
  let s ← asString v
  match ofText? s with
  | some a => .ok a
  | none => .error (.unknown s known)

/-- The kind of a type. -/
def asKind : Json → Decoded Kind := asWord Kind.ofText? "a kind of type"

/-- A place where a directive may be applied. -/
def asLocation : Json → Decoded String :=
  asWord (fun s => if isDirectiveLocation s then some s else none) "a directive location"

/-! ## Members -/

/-- The members of an object. -/
def membersOf (what : String) : Json → Decoded (List (String × Json))
  | .object ms => .ok ms
  | v => wrongType v what

/-- A member that may be missing. -/
def optional {α : Type} (ms : List (String × Json)) (key : String) (decode : Json → Decoded α) :
    Decoded (Option α) :=
  match ms.lookup key with
  | some v => (decode v).map some
  | none => .ok none

/-- A member that must not be missing. -/
def required {α : Type} (key : String) : Option α → Decoded α
  | some a => .ok a
  | none => .error (.missing key)

/-! ## Parts of an answer -/

mutual

/-- The number of objects that lie in each other. -/
def objectDepth : Json → Nat
  | .object ms => 1 + membersDepth ms
  | _ => 1

/-- The greatest depth among members. -/
def membersDepth : List (String × Json) → Nat
  | [] => 0
  | (_, v) :: ms => max (objectDepth v) (membersDepth ms)

end

/-- A reference to a type that lies no deeper than `levels`. -/
def asRefWithin : (levels : Nat) → Json → Decoded RawRef
  | 0, v => wrongType v "a type reference"
  | levels + 1, v => do
    -- members are decoded in the order of their keys before any of them is missed
    let ms ← membersOf "a type reference" v
    let kind ← optional ms "kind" asKind
    let name ← optional ms "name" (nullable asString)
    let ofType ← optional ms "ofType" (nullable (asRefWithin levels))
    let kind ← required "kind" kind
    let name ← required "name" name
    .ok (.mk kind name (ofType.getD none))

/-- A reference to a type. -/
def asRef (v : Json) : Decoded RawRef := asRefWithin (objectDepth v) v

/-- A mention of a type by name. -/
def asName (v : Json) : Decoded RawName := do
  let ms ← membersOf "a named type" v
  let name ← optional ms "name" (nullable asString)
  .ok ⟨← required "name" name⟩

/-- An argument, or a field of an input object. -/
def asInput (v : Json) : Decoded RawInput := do
  let ms ← membersOf "an input value" v
  let defaultValue ← optional ms "defaultValue" (nullable asString)
  let reason ← optional ms "deprecationReason" (nullable asString)
  let description ← optional ms "description" (nullable asString)
  let isDeprecated ← optional ms "isDeprecated" asBool
  let name ← optional ms "name" asString
  let type ← optional ms "type" asRef
  let name ← required "name" name
  let description ← required "description" description
  let type ← required "type" type
  let defaultValue ← required "defaultValue" defaultValue
  .ok ⟨name, description, type, defaultValue, isDeprecated.getD false, reason.getD none⟩

/-- A field of an object or an interface. -/
def asField (v : Json) : Decoded RawField := do
  let ms ← membersOf "a field" v
  let args ← optional ms "args" (listOf asInput)
  let reason ← optional ms "deprecationReason" (nullable asString)
  let description ← optional ms "description" (nullable asString)
  let isDeprecated ← optional ms "isDeprecated" asBool
  let name ← optional ms "name" asString
  let type ← optional ms "type" asRef
  let name ← required "name" name
  let description ← required "description" description
  let args ← required "args" args
  let type ← required "type" type
  let isDeprecated ← required "isDeprecated" isDeprecated
  let reason ← required "deprecationReason" reason
  .ok ⟨name, description, args, type, isDeprecated, reason⟩

/-- A value of an enum. -/
def asEnumValue (v : Json) : Decoded RawEnumValue := do
  let ms ← membersOf "an enum value" v
  let reason ← optional ms "deprecationReason" (nullable asString)
  let description ← optional ms "description" (nullable asString)
  let isDeprecated ← optional ms "isDeprecated" asBool
  let name ← optional ms "name" asString
  let name ← required "name" name
  let description ← required "description" description
  let isDeprecated ← required "isDeprecated" isDeprecated
  let reason ← required "deprecationReason" reason
  .ok ⟨name, description, isDeprecated, reason⟩

/-- A type. -/
def asType (v : Json) : Decoded RawType := do
  let ms ← membersOf "a type" v
  let description ← optional ms "description" (nullable asString)
  let enumValues ← optional ms "enumValues" (nullable (listOf asEnumValue))
  let fields ← optional ms "fields" (nullable (listOf asField))
  let inputFields ← optional ms "inputFields" (nullable (listOf asInput))
  let interfaces ← optional ms "interfaces" (nullable (listOf asName))
  let isOneOf ← optional ms "isOneOf" (nullable asBool)
  let kind ← optional ms "kind" asKind
  let name ← optional ms "name" (nullable asString)
  let possibleTypes ← optional ms "possibleTypes" (nullable (listOf asName))
  let _ ← optional ms "specifiedByURL" (nullable asString)
  let kind ← required "kind" kind
  let name ← required "name" name
  let description ← required "description" description
  let fields ← required "fields" fields
  let inputFields ← required "inputFields" inputFields
  let interfaces ← required "interfaces" interfaces
  let enumValues ← required "enumValues" enumValues
  let possibleTypes ← required "possibleTypes" possibleTypes
  .ok ⟨kind, name, description, fields, inputFields, interfaces, enumValues, possibleTypes,
    isOneOf.getD none⟩

/-- A directive. -/
def asDirective (v : Json) : Decoded RawDirective := do
  let ms ← membersOf "a directive" v
  let args ← optional ms "args" (listOf asInput)
  let description ← optional ms "description" (nullable asString)
  let isRepeatable ← optional ms "isRepeatable" asBool
  let locations ← optional ms "locations" (listOf asLocation)
  let name ← optional ms "name" asString
  let name ← required "name" name
  let description ← required "description" description
  let args ← required "args" args
  let locations ← required "locations" locations
  .ok ⟨name, description, args, locations, isRepeatable.getD false⟩

/-- A schema. -/
def asSchema (v : Json) : Decoded RawSchema := do
  let ms ← membersOf "a schema" v
  let directives ← optional ms "directives" (listOf asDirective)
  let mutationType ← optional ms "mutationType" (nullable asName)
  let queryType ← optional ms "queryType" asName
  let subscriptionType ← optional ms "subscriptionType" (nullable asName)
  let types ← optional ms "types" (listOf asType)
  let queryType ← required "queryType" queryType
  let mutationType ← required "mutationType" mutationType
  let subscriptionType ← required "subscriptionType" subscriptionType
  let types ← required "types" types
  let directives ← required "directives" directives
  .ok ⟨queryType, mutationType, subscriptionType, types, directives⟩

/-- A whole answer. -/
def Answer.ofJson (v : Json) : Decoded Answer := do
  let ms ← membersOf "an introspection result" v
  let schema ← optional ms "__schema" (nullable asSchema)
  .ok ⟨← required "__schema" schema⟩

end SchemaCatalog.Introspection

/-
# Schemas from answers

A schema is an answer in which everything has the name and the form that its
place asks for: named types are named, and every wrapper wraps something.
-/
import SchemaCatalog.Introspection.Answer
import SchemaCatalog.Shape

namespace SchemaCatalog.Introspection

/-! ## Faults -/

/-- Why an answer is no schema. -/
inductive BuildError where
  | noData
  | missingName
  | unexpectedList
  | unexpectedNonNull
  | emptyWrapper
  | tooNested
  deriving DecidableEq

/-- How such an answer is reported. -/
def BuildError.message : BuildError → String
  | noData =>
    "The introspection query returned no data.  Try looking in the response for errors"
  | missingName => "A type in the introspection output was missing a name"
  | unexpectedList =>
    "Found a list wrapper type in a position that should contain a named type"
  | unexpectedNonNull =>
    "Found a non-null wrapper type in a position that should contain a named type"
  | emptyWrapper => "Found a wrapping type that had no inner ofType"
  | tooNested => "Found a wrapping type that was too nested"

/-- What building yields. -/
abbrev Built := Except BuildError

/-! ## Schemas -/

/-- A reference to a type. -/
inductive Ref where
  | named (name : String)
  | list (inner : Ref)
  | nonNull (inner : Ref)

namespace Ref

/-- The name inside all wrappers. -/
def innermost : Ref → String
  | named n => n
  | list r | nonNull r => r.innermost

/-- How a reference is written. -/
def text : Ref → String
  | named n => n
  | list r => "[" ++ r.text ++ "]"
  | nonNull r => r.text ++ "!"

end Ref

/-- Whether something is deprecated, and why. -/
inductive Deprecation where
  | no
  | yes (reason : Option String)

/-- The deprecation that a flag and a reason tell. -/
def Deprecation.ofFlag (isDeprecated : Bool) (reason : Option String) : Deprecation :=
  if isDeprecated then yes reason else no

/-- An argument, or a field of an input object. -/
structure Input where
  name : String
  description : Option String
  type : Ref
  defaultValue : Option String
  deprecation : Deprecation

/-- A field of an object or an interface. -/
structure Field where
  name : String
  description : Option String
  args : List Input
  type : Ref
  deprecation : Deprecation

/-- A value of an enum. -/
structure EnumValue where
  name : String
  description : Option String
  deprecation : Deprecation

/-- What a type is made of. -/
inductive Content where
  | scalar
  | object (interfaces : List String) (fields : List Field)
  | interface (interfaces : List String) (fields : List Field)
  | union (members : List String)
  | enum (values : List EnumValue)
  | inputObject (isOneOf : Bool) (fields : List Input)

/-- A type. -/
structure TypeDef where
  name : String
  description : Option String
  content : Content

/-- A directive. -/
structure Directive where
  name : String
  description : Option String
  args : List Input
  locations : List String
  isRepeatable : Bool

/-- A schema. -/
structure Schema where
  query : String
  mutation : Option String
  subscription : Option String
  types : List TypeDef
  directives : List Directive

/-! ## Building -/

/-- A name that must not be missing. -/
def nameOf : Option String → Built String
  | some n => .ok n
  | none => .error .missingName

/-- A reference within at most `room - 1` wrappers. -/
def refWithin : (room : Nat) → RawRef → Built Ref
  | 0, _ => .error .tooNested
  | room + 1, .mk kind name ofType =>
    match kind with
    | .list =>
      match ofType with
      | some inner => (refWithin room inner).map .list
      | none => .error .emptyWrapper
    | .nonNull =>
      match ofType with
      | some inner => (refWithin room inner).map .nonNull
      | none => .error .emptyWrapper
    | _ => (nameOf name).map .named

/-- The number of wrappers that are too many. -/
def maxWrappers : Nat := 8

/-- A reference to a type. -/
def Ref.ofRaw (r : RawRef) : Built Ref := refWithin maxWrappers r

/-- An argument, or a field of an input object. -/
def Input.ofRaw (v : RawInput) : Built Input := do
  .ok ⟨v.name, v.description, ← Ref.ofRaw v.type, v.defaultValue,
    .ofFlag v.isDeprecated v.deprecationReason⟩

/-- A field of an object or an interface. -/
def Field.ofRaw (f : RawField) : Built Field := do
  let args ← f.args.mapM Input.ofRaw
  .ok ⟨f.name, f.description, args, ← Ref.ofRaw f.type,
    .ofFlag f.isDeprecated f.deprecationReason⟩

/-- A value of an enum. -/
def EnumValue.ofRaw (v : RawEnumValue) : EnumValue :=
  ⟨v.name, v.description, .ofFlag v.isDeprecated v.deprecationReason⟩

/-- The names that are mentioned. -/
def namesOf (ns : Option (List RawName)) : Built (List String) :=
  (ns.getD []).mapM fun n => nameOf n.name

/-- The fields of a type. -/
def fieldsOf (fs : Option (List RawField)) : Built (List Field) :=
  (fs.getD []).mapM Field.ofRaw

/-- What a type is made of, its name aside. -/
def Content.ofRaw (t : RawType) : Built Content :=
  match t.kind with
  | .scalar => .ok .scalar
  | .object => do
    let fields ← fieldsOf t.fields
    .ok (.object (← namesOf t.interfaces) fields)
  | .interface => do
    let fields ← fieldsOf t.fields
    let interfaces ← namesOf t.interfaces
    -- the implementors are not kept, but each has to have a name
    let _ ← namesOf t.possibleTypes
    .ok (.interface interfaces fields)
  | .union => do .ok (.union (← namesOf t.possibleTypes))
  | .enum => .ok (.enum ((t.enumValues.getD []).map .ofRaw))
  | .inputObject => do
    .ok (.inputObject (t.isOneOf.getD false) (← (t.inputFields.getD []).mapM Input.ofRaw))
  | .list => .error .unexpectedList
  | .nonNull => .error .unexpectedNonNull

/-- A type. -/
def TypeDef.ofRaw (t : RawType) : Built TypeDef :=
  match t.kind with
  | .list => .error .unexpectedList
  | .nonNull => .error .unexpectedNonNull
  | _ => do
    let name ← nameOf t.name
    .ok ⟨name, t.description, ← Content.ofRaw t⟩

/-- A directive. -/
def Directive.ofRaw (d : RawDirective) : Built Directive := do
  .ok ⟨d.name, d.description, ← d.args.mapM Input.ofRaw, d.locations, d.isRepeatable⟩

/-- A type that may not be mentioned at all, but has a name if it is. -/
def rootOf : Option RawName → Built (Option String)
  | none => .ok none
  | some n => (nameOf n.name).map some

/-- The schema that an answer holds. -/
def Schema.ofAnswer (a : Answer) : Built Schema :=
  match a.schema with
  | none => .error .noData
  | some s => do
    let query ← nameOf s.queryType.name
    let mutation ← rootOf s.mutationType
    let subscription ← rootOf s.subscriptionType
    let types ← s.types.mapM TypeDef.ofRaw
    let directives ← s.directives.mapM Directive.ofRaw
    .ok ⟨query, mutation, subscription, types, directives⟩

end SchemaCatalog.Introspection

/-
# Merging fragments

Definitions of the same thing become one.  What comes first decides the place and
the order; what comes later adds the members that are new by name.  Additions to
types are kept as they are.
-/
import SchemaCatalog.Fragment.Grammar
import SchemaCatalog.Fragment.Printer
import SchemaCatalog.Table
import SchemaCatalog.Document.Implements

namespace SchemaCatalog.Fragment

/-! ## Conflicts -/

/-- Two definitions that cannot both hold. -/
inductive Conflict where
  /-- One type is defined with two shapes. -/
  | shapes (typeName : String) (earlier later : Shape)
  /-- One operation starts from two types. -/
  | roots (operation : Operation) (earlier later : String)
  deriving DecidableEq

namespace Conflict

/-- The name of what is defined twice. -/
def subject : Conflict → String
  | shapes typeName _ _ => typeName
  | roots _ _ _ => "schema"

/-- Why the definitions cannot both hold. -/
def reason : Conflict → String
  | shapes _ earlier later => "declared as both " ++ earlier.phrase ++ " and " ++ later.phrase
  | roots o earlier later =>
    "the `" ++ o.text ++ "` operation is bound to both `" ++ earlier ++ "` and `" ++ later ++ "`"

/-- How a conflict is reported. -/
def message (c : Conflict) : String :=
  "Unable to merge the `" ++ c.subject ++ "` definitions of two schema fragments: " ++ c.reason

end Conflict

/-! ## Merging two definitions -/

/-- A list with those items of another that are new by their keys. -/
def unionBy {α β : Type} [DecidableEq β] (key : α → β) (earlier later : List α) : List α :=
  later.foldl
    (fun kept x => if kept.any fun y => key y = key x then kept else kept ++ [x]) earlier

/-- Directives with those of a later definition that are new. -/
def mergeDirectives (earlier later : List Directive) : List Directive :=
  unionBy (fun d => d.name.text) earlier later

/-- Names with those of a later definition that are new. -/
def mergeNames (earlier later : List Name) : List Name :=
  unionBy Name.text earlier later

/-- The contents of two definitions of one type, if they have the same shape. -/
def Content.merge? : Content → Content → Option Content
  | .enum vs, .enum ws => some (.enum (unionBy (fun v => v.name.text) vs ws))
  | .inputObject fs, .inputObject gs => some (.inputObject (unionBy (fun f => f.name.text) fs gs))
  | .interface is fs, .interface js gs =>
    some (.interface (mergeNames is js) (unionBy (fun f => f.name.text) fs gs))
  | .object is fs, .object js gs =>
    some (.object (mergeNames is js) (unionBy (fun f => f.name.text) fs gs))
  | .scalar, .scalar => some .scalar
  | .union ms, .union ns => some (.union (mergeNames ms ns))
  | _, _ => none

/-- Two definitions of one type as one. -/
def TypeDefinition.merge (earlier later : TypeDefinition) : Except Conflict TypeDefinition :=
  match earlier.content.merge? later.content with
  | some content =>
    .ok {
      description := earlier.description <|> later.description
      name := earlier.name
      directives := mergeDirectives earlier.directives later.directives
      content := content }
  | none =>
    .error (.shapes earlier.name.text earlier.content.shape later.content.shape)

/-- The type that an operation starts from, of two that may be given. -/
def mergeRoot (o : Operation) (earlier later : Option Name) : Except Conflict (Option Name) :=
  match earlier, later with
  | some e, some l => if e.text = l.text then .ok (some e) else .error (.roots o e.text l.text)
  | some e, none => .ok (some e)
  | none, l => .ok l

/-- Two definitions of the schema as one. -/
def SchemaDefinition.merge (earlier later : SchemaDefinition) :
    Except Conflict SchemaDefinition := do
  let query ← mergeRoot .query earlier.query later.query
  let mutation ← mergeRoot .mutation earlier.mutation later.mutation
  let subscription ← mergeRoot .subscription earlier.subscription later.subscription
  .ok ⟨mergeDirectives earlier.directives later.directives, query, mutation, subscription⟩

/-! ## Merging definitions -/

/-- What has been merged so far, with the places where definitions are found again. -/
structure Merger where
  definitions : List Definition
  /-- The names of the directives that are defined. -/
  directiveNames : List String
  /-- The place of the definition of the schema. -/
  schemaPlace : Option Nat
  /-- The places of the definitions of types, by the names of the types. -/
  typePlaces : Table Nat

namespace Merger

/-- Nothing is merged yet. -/
def empty : Merger := ⟨[], [], none, .empty⟩

/-- The definition of the schema at its place. -/
def schemaAt? (m : Merger) : Option (Nat × SchemaDefinition) :=
  m.schemaPlace.bind fun i =>
    match m.definitions[i]? with
    | some (.schema s) => some (i, s)
    | _ => none

/-- The definition of a type at its place. -/
def typeAt? (m : Merger) (name : String) : Option (Nat × TypeDefinition) :=
  (m.typePlaces.get? name).bind fun i =>
    match m.definitions[i]? with
    | some (.type t) => some (i, t)
    | _ => none

/-- Puts a definition behind all others. -/
def push (m : Merger) (d : Definition) : Merger :=
  { m with definitions := m.definitions ++ [d] }

/-- Puts a definition in the place of another. -/
def replace (m : Merger) (i : Nat) (d : Definition) : Merger :=
  { m with definitions := m.definitions.set i d }

/-- Adds a definition of the schema. -/
def addSchema (m : Merger) (s : SchemaDefinition) : Except Conflict Merger :=
  match m.schemaAt? with
  | some (i, earlier) => (earlier.merge s).map fun merged => m.replace i (.schema merged)
  | none => .ok { m.push (.schema s) with schemaPlace := some m.definitions.length }

/-- Adds a definition of a type. -/
def addType (m : Merger) (t : TypeDefinition) : Except Conflict Merger :=
  match m.typeAt? t.name.text with
  | some (i, earlier) => (earlier.merge t).map fun merged => m.replace i (.type merged)
  | none =>
    .ok { m.push (.type t) with
      typePlaces := m.typePlaces.put t.name.text m.definitions.length }

/-- Adds a definition of a directive. -/
def addDirective (m : Merger) (d : DirectiveDefinition) : Merger :=
  -- the first definition stays, whatever a later one says
  if m.directiveNames.contains d.name.text then m
  else { m.push (.directive d) with directiveNames := m.directiveNames ++ [d.name.text] }

/-- Adds a definition.  It is merged with the one that defines the same thing, and
comes last if there is none. -/
def add (m : Merger) : Definition → Except Conflict Merger
  | .schema s => m.addSchema s
  | .type t => m.addType t
  | .directive d => .ok (m.addDirective d)
  | .extension e => .ok (m.push (.extension e))

/-- Adds definitions, the first of them first. -/
def addAll (m : Merger) (ds : List Definition) : Except Conflict Merger :=
  ds.foldlM add m

end Merger

/-- Definitions of which no two define the same thing. -/
def mergeDefinitions (ds : List Definition) : Except Conflict (List Definition) :=
  (Merger.empty.addAll ds).map Merger.definitions

/-! ## Merging texts -/

/-- Why texts cannot be merged. -/
inductive MergeError where
  /-- A fragment, counted from zero, cannot be read. -/
  | unreadable (index : Nat) (cause : SyntaxError)
  | conflict (c : Conflict)
  deriving DecidableEq

/-- Reads a fragment, with the separators put in that its lists of interfaces lack. -/
def readRepaired (text : String) : Attempt SyntaxError (List Definition) :=
  ofText (Document.Implements.repair text)

/-- Adds the definitions of a text to those of the texts before it, which are
counted. -/
def addText (state : Nat × Merger) (text : String) : Attempt MergeError (Nat × Merger) :=
  match readRepaired text with
  | .brokenOff => .brokenOff
  | .error e => .error (.unreadable state.1 e)
  | .ok ds =>
    match state.2.addAll ds with
    | .error c => .error (.conflict c)
    | .ok merged => .ok (state.1 + 1, merged)

/-- The definitions of several texts, merged. -/
def mergeTexts (texts : List String) : Attempt MergeError (List Definition) :=
  (texts.foldlM addText (0, .empty)).map fun state => state.2.definitions

/-- One text in place of several.  A text that comes alone is taken as it is. -/
def mergedText : List String → Attempt MergeError String
  | [text] => .ok text
  | texts => (mergeTexts texts).map write

/-! ## What is reported -/

/-- What is reported when a definition is added to others. -/
def addNote (m : Merger) : Definition → Log
  | .type t =>
    if (m.typeAt? t.name.text).isSome then
      [.trace ("Combining fragment definitions of `" ++ t.name.text ++ "`.")]
    else []
  | _ => []

/-- What is reported when definitions are added to others. -/
def addLog (m : Merger) : List Definition → Log
  | [] => []
  | d :: ds =>
    addNote m d ++
      match m.add d with
      | .ok merged => addLog merged ds
      | .error _ => []

/-- What is reported when texts are added, of which there are `count` in all. -/
def textsLog (count : Nat) (m : Merger) : List String → Log
  | [] =>
    [.debug ("Merged " ++ toString count ++ " schema fragments into "
      ++ toString m.definitions.length ++ " definitions.")]
  | t :: ts =>
    Document.Implements.log t ++
      match readRepaired t with
      | .error _ | .brokenOff => []
      | .ok ds =>
        addLog m ds ++
          match m.addAll ds with
          | .error _ => []
          | .ok merged => textsLog count merged ts

/-- What is reported when texts are merged into one. -/
def mergeLog : List String → Log
  | [_] => []
  | texts => textsLog texts.length .empty texts

end SchemaCatalog.Fragment

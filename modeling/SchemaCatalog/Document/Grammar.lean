/-
# The grammar of schema documents

Each production is a rule, with the message that tells what was expected where
it refuses a token.  The parameter `fuel` bounds the number of items in a
sequence and is the number of tokens of the text; `levels` is the number of
levels that may still be entered, lists, objects and selections counted together.
-/
import SchemaCatalog.Document.Basic
import SchemaCatalog.Document.StringValue
import SchemaCatalog.Location
import SchemaCatalog.Rule

namespace SchemaCatalog.Document

open Rule

/-- A rule that says in words why it refuses what stands next. -/
abbrev Production (α : Type) : Type := Rule String α

/-! ## Words and marks -/

/-- The number of levels that a text may enter. -/
def maxLevels : Nat := 500

/-- Refuses to enter one level more. -/
def tooDeep {α : Type} : Production α := .fail "parser recursion limit reached"

/-- Reads a name. -/
def name : Production Name := nameOr "expected a Name"

/-- Takes the mark that closes a part of the text. -/
def close (m : Mark) (label : String) : Production Unit := do
  match ← current with
  | some t =>
    if t = .mark m then skip else fail ("expected " ++ label ++ ", got " ++ t.text)
  | none => fail ("expected " ++ label ++ ", got EOF")

/-- Whether a reference to a type can begin with a token. -/
def startsType (t : Option Token) : Bool :=
  startsName t || t = some (.mark .openBracket)

/-- Reads a description, if there is one. -/
def description : Production (Option String) := do
  match ← current with
  | some (.string text) => do skip; pure (some (stringValue text))
  | _ => pure none

/-- Reads the members between two marks, if the first mark is there. -/
def members {α : Type} (fuel : Nat) (opening closing : Mark) (label message : String)
    (item : Production α) : Production (Option (List α)) := do
  if ← takeMark opening then
    if startsMember (← current) then
      let items ← many fuel startsMember item
      close closing label
      pure (some items)
    else
      fail message
  else
    pure none

/-! ## References to types -/

/-- Reads a reference to a type whose elements, if it is a list, `element` reads. -/
def typeRefWith (element : Production TypeRef) : Production TypeRef := do
  match ← current with
  | some (.name n) => do
    skip
    pure (.named n (← takeMark .bang))
  | some (.mark .openBracket) => do
    skip
    let t ← element
    close .closeBracket "R_BRACK"
    pure (.list t (← takeMark .bang))
  | _ => fail "expected item type"

/-- Reads a reference to a type. -/
def typeRef : (levels : Nat) → Production TypeRef
  | 0 => typeRefWith tooDeep
  | levels + 1 => typeRefWith (typeRef levels)

/-- Reads a reference to a type, which must not be missing. -/
def typeOr (message : String) : Production TypeRef := do
  if startsType (← current) then typeRef maxLevels else fail message

/-! ## Values and directives -/

/-- Reads a colon and what stands after it, if the colon is there. -/
def afterColon {α : Type} (item : Production α) : Production (Option α) := do
  if ← takeMark .colon then
    pure (some (← item))
  else
    pure none

/-- Whether a list value goes on: it ends at its bracket or at the end of the text. -/
def startsListItem (t : Option Token) : Bool :=
  t.isSome && t ≠ some (.mark .closeBracket)

/-- Reads a value whose parts, if it has any, `inner` reads. -/
def valueWith (fuel : Nat) (constant : Bool) (inner : Production Value) : Production Value := do
  match ← current with
  | some (.mark .dollar) =>
    if constant then
      fail "unexpected variable value in a Const context"
    else do
      skip
      pure (.variable (← name))
  | some (.int text) | some (.float text) => do skip; pure (.number text)
  | some (.string text) => do skip; pure (.string text)
  | some (.name n) => do skip; pure (.word n)
  | some (.mark .openBracket) => do
    skip
    let items ← many fuel startsListItem inner
    -- the bracket is missing only at the end of the text
    let _ ← takeMark .closeBracket
    pure (.list items)
  | some (.mark .openBrace) => do
    skip
    let fields ← many fuel startsName do
      let n ← name
      pure (n, ← afterColon inner)
    close .closeBrace "R_CURLY"
    pure (.object fields)
  | _ => fail "expected a valid Value"

/-- Reads a value. -/
def value (fuel : Nat) (constant : Bool) : (levels : Nat) → Production Value
  | 0 => valueWith fuel constant tooDeep
  | levels + 1 => valueWith fuel constant (value fuel constant levels)

/-- Reads the arguments of a directive or of a selected field, if there are any. -/
def arguments (fuel : Nat) (constant : Bool) (levels : Nat) :
    Production (List (Name × Option Value)) := do
  if ← takeMark .openParen then
    if startsName (← current) then
      let items ← many fuel startsName do
        let n ← name
        pure (n, ← afterColon (value fuel constant levels))
      close .closeParen "R_PAREN"
      pure items
    else
      fail "expected an Argument"
  else
    pure []

/-- Reads the directives that are applied at this place. -/
def directives (fuel : Nat) (constant : Bool) (levels : Nat) : Production (List Directive) :=
  many fuel (· = some (.mark .atSign)) do
    skip
    let n ← name
    pure ⟨n, ← arguments fuel constant levels⟩

/-- Reads the directives that are applied to a part of the schema. -/
def schemaDirectives (fuel : Nat) : Production (List Directive) :=
  directives fuel true maxLevels

/-! ## Members of types -/

/-- Reads a default value, if there is one. -/
def defaultValue (fuel : Nat) : Production (Option Value) := do
  if ← takeMark .equals then
    pure (some (← value fuel true maxLevels))
  else
    pure none

/-- Reads an argument of a definition, or a field of an input object. -/
def inputValue (fuel : Nat) : Production InputValue := do
  let d ← description
  let n ← name
  markOr .colon "expected a Name"
  let t ← typeOr "expected a Type"
  let v ← defaultValue fuel
  pure ⟨d, n, t, v, ← schemaDirectives fuel⟩

/-- Reads the arguments of a definition, if there are any. -/
def argumentsDefinition (fuel : Nat) : Production (List InputValue) := do
  pure ((← members fuel .openParen .closeParen "R_PAREN" "expected an Argument Definition"
    (inputValue fuel)).getD [])

/-- Reads a field. -/
def field (fuel : Nat) : Production Field := do
  let d ← description
  let n ← name
  let args ← argumentsDefinition fuel
  markOr .colon "expected a type"
  let t ← typeOr "expected a Type"
  pure ⟨d, n, args, t, ← schemaDirectives fuel⟩

/-- Words that cannot be the value of an enum. -/
def reservedValues : List String := ["true", "false", "null"]

/-- Reads a value of an enum. -/
def enumValue (fuel : Nat) : Production EnumValue := do
  let d ← description
  match ← current with
  | some (.name n) =>
    if n.text ∈ reservedValues then
      fail "invalid Enum Value"
    else do
      skip
      pure ⟨d, n, ← schemaDirectives fuel⟩
  | _ => fail "expected Enum Value"

/-- Reads the interfaces that a type implements, if any are declared. -/
def implements (fuel : Nat) : Production (Option (List Name)) := do
  if ← takeWord "implements" then
    let _ ← takeMark .ampersand
    pure (some (← separated fuel .ampersand (nameOr "expected an Interface name")))
  else
    pure none

/-- Reads the members of a union, if any are declared. -/
def unionMembers (fuel : Nat) : Production (Option (List Name)) := do
  if ← takeMark .equals then
    let _ ← takeMark .pipe
    pure (some (← separated fuel .pipe (nameOr "expected Union Member Type")))
  else
    pure none

/-! ## Definitions of types -/

/-- What follows the name of a type: its directives, its content, and whether
anything is written at all. -/
structure Body where
  directives : List Directive
  content : Content
  isWritten : Bool

/-- Reads the body of an object or of an interface. -/
def fieldsBody (fuel : Nat) (make : List Name → List Field → Content) : Production Body := do
  let is ← implements fuel
  let ds ← schemaDirectives fuel
  let fs ← members fuel .openBrace .closeBrace "R_CURLY" "expected Field Definition" (field fuel)
  pure ⟨ds, make (is.getD []) (fs.getD []), is.isSome || !ds.isEmpty || fs.isSome⟩

/-- Reads the body of a type. -/
def body (fuel : Nat) : Shape → Production Body
  | .object => fieldsBody fuel .object
  | .interface => fieldsBody fuel .interface
  | .scalar => do
    let ds ← schemaDirectives fuel
    pure ⟨ds, .scalar, !ds.isEmpty⟩
  | .union => do
    let ds ← schemaDirectives fuel
    let ms ← unionMembers fuel
    pure ⟨ds, .union (ms.getD []), !ds.isEmpty || ms.isSome⟩
  | .enum => do
    let ds ← schemaDirectives fuel
    let vs ← members fuel .openBrace .closeBrace "R_CURLY" "expected Enum Value Definition"
      (enumValue fuel)
    pure ⟨ds, .enum (vs.getD []), !ds.isEmpty || vs.isSome⟩
  | .inputObject => do
    let ds ← schemaDirectives fuel
    let fs ← members fuel .openBrace .closeBrace "R_CURLY"
      "expected an Input Value Definition" (inputValue fuel)
    pure ⟨ds, .inputObject (fs.getD []), !ds.isEmpty || fs.isSome⟩

/-- Reads the definition of a type. -/
def typeDefinition (fuel : Nat) (shape : Shape) : Production Definition := do
  let d ← description
  -- the word that announced the definition
  skip
  let n ← nameOr (if shape = .object then "expected a name" else "expected a Name")
  let b ← body fuel shape
  pure (.type ⟨.definition d, n, b.directives, b.content⟩)

/-- What is expected of an extension that says nothing. -/
def extensionMessage : Shape → String
  | .object => "expected an Implements Interface, Directives or a Fields Definition"
  | .interface => "exptected an Implements Interfaces, Directives, or a Fields Definition"
  | .scalar => "expected Directives"
  | .union => "expected Directives or Union Member Types"
  | .enum => "expected Directive or Enum Values Definition"
  | .inputObject => "expected Directives or an Input Fields Definition"

/-- Reads an addition to a type. -/
def typeExtension (fuel : Nat) (shape : Shape) : Production Definition := do
  -- the word `extend` and the one that tells the shape
  skip
  skip
  let n ← name
  let b ← body fuel shape
  if b.isWritten then
    pure (.type ⟨.extension, n, b.directives, b.content⟩)
  else
    fail (extensionMessage shape)

/-! ## The schema and its directives -/

/-- Reads an entry of a schema definition.  The name of the type may be missing. -/
def rootOperation : Production RootOperation := do
  match ← current with
  | some (.name n) =>
    match Operation.ofText? n.text with
    | some o => do
      skip
      markOr .colon "expected a Name Type"
      match ← current with
      | some (.name t) => do skip; pure ⟨o, some t⟩
      | _ => pure ⟨o, none⟩
    | none => fail "expected either a 'mutation', a 'query', or a 'subscription'"
  | _ => fail "expected Root Operation Type Definition"

/-- Reads the definition of the schema. -/
def schemaDefinition (fuel : Nat) : Production Definition := do
  let d ← description
  skip
  let ds ← schemaDirectives fuel
  if ← takeMark .openBrace then
    let os ← many fuel startsName rootOperation
    if os.isEmpty then
      fail "expected Root Operation Type Definition"
    else do
      close .closeBrace "R_CURLY"
      pure (.schema ⟨d, ds, os⟩)
  else
    pure (.schema ⟨d, ds, []⟩)

/-- Reads an addition to the schema. -/
def schemaExtension (fuel : Nat) : Production Definition := do
  skip
  skip
  let ds ← schemaDirectives fuel
  let os ← do
    if ← takeMark .openBrace then
      -- other than in a definition, no entry need stand between the braces
      let os ← many fuel startsName rootOperation
      close .closeBrace "R_CURLY"
      pure os
    else
      pure []
  if ds.isEmpty && os.isEmpty then
    fail "expected directives or Root Operation Type Definition"
  else
    pure (.aside .schemaExtension)

/-- Reads a place where a directive may be applied. -/
def location : Production Name := do
  match ← current with
  | some (.name n) =>
    if isDirectiveLocation n.text then do
      skip
      pure n
    else
      fail "expected valid Directive Location"
  | _ => fail "expected Directive Location"

/-- Reads the definition of a directive. -/
def directiveDefinition (fuel : Nat) : Production Definition := do
  let d ← description
  skip
  markOr .atSign "expected @ symbol"
  let n ← name
  let args ← argumentsDefinition fuel
  let again ← takeWord "repeatable"
  if ← takeWord "on" then
    let t ← current
    if startsName t || t = some (.mark .pipe) then
      let _ ← takeMark .pipe
      let places ← separated fuel .pipe location
      pure (.directive ⟨d, n, args, again, places⟩)
    else
      fail "expected valid Directive Location"
  else
    fail "expected Directive Locations"

/-! ## Executable definitions -/

/-- Reads the type that a fragment applies to. -/
def typeCondition : Production Unit := do
  if ← takeWord "on" then
    let _ ← nameOr "expected a Name in Type Condition"
    pure ()
  else
    fail "expected 'on'"

/-- Whether a token opens a set of selections. -/
def startsSelections (t : Option Token) : Bool := t = some (.mark .openBrace)

/-- Reads selections with `inner`, which must not be missing. -/
def selectionsOr (inner : Production Unit) (message : String) : Production Unit := do
  if startsSelections (← current) then inner else fail message

/-- Reads a selected field, with what is selected of it in turn. -/
def selectedField (fuel levels : Nat) (inner : Production Unit) : Production Unit := do
  if (← second) = some (.mark .colon) then
    -- the name that the result is to have
    skip
    skip
  let _ ← name
  let _ ← arguments fuel false levels
  let _ ← directives fuel false levels
  if startsSelections (← current) then inner

/-- Reads a fragment that stands by itself. -/
def inlineFragment (fuel levels : Nat) (inner : Production Unit) : Production Unit := do
  skip
  if startsName (← current) then typeCondition
  let _ ← directives fuel false levels
  selectionsOr inner "expected Selection Set"

/-- Reads the name of a fragment. -/
def fragmentName (message : String) : Production Unit := do
  match ← current with
  | some (.name n) => if n.text = "on" then fail "Fragment Name cannot be 'on'" else skip
  | _ => fail message

/-- Reads a reference to a fragment. -/
def fragmentSpread (fuel levels : Nat) : Production Unit := do
  skip
  fragmentName "expected a Name"
  let _ ← directives fuel false levels

/-- Reads one selection. -/
def selection (fuel levels : Nat) (inner : Production Unit) : Production Unit := do
  if startsName (← current) then
    selectedField fuel levels inner
  else
    match ← second with
    | some (.name n) =>
      if n.text = "on" then inlineFragment fuel levels inner else fragmentSpread fuel levels
    | some (.mark .atSign) | some (.mark .openBrace) => inlineFragment fuel levels inner
    | _ => fail "expected an Inline Fragment or a Fragment Spread"

/-- Whether a selection can begin with a token. -/
def startsSelection (t : Option Token) : Bool :=
  startsName t || t = some (.mark .spread)

/-- Reads a set of selections. -/
def selectionSet (fuel : Nat) : (levels : Nat) → Production Unit
  | 0 => do skip; tooDeep
  | levels + 1 => do
    skip
    let items ← many fuel startsSelection (selection fuel levels (selectionSet fuel levels))
    if items.isEmpty then
      fail "expected at least one Selection in Selection Set"
    else
      close .closeBrace "R_CURLY"

/-- Reads a variable of an operation. -/
def variableDefinition (fuel : Nat) : Production Unit := do
  skip
  let _ ← name
  markOr .colon "expected a Name"
  let _ ← typeOr "expected a Type"
  let _ ← defaultValue fuel
  let _ ← schemaDirectives fuel

/-- Whether a variable can begin with a token. -/
def startsVariable (t : Option Token) : Bool := t = some (.mark .dollar)

/-- Reads the variables of an operation, if there are any. -/
def variableDefinitions (fuel : Nat) : Production Unit := do
  if ← takeMark .openParen then
    if startsVariable (← current) then
      let _ ← many fuel startsVariable (variableDefinition fuel)
      close .closeParen "R_PAREN"
    else
      fail "expected a Variable Definition"

/-- Reads an operation. -/
def operationDefinition (fuel : Nat) : Production Definition := do
  match ← current with
  | some (.mark .openBrace) => do
    selectionSet fuel maxLevels
    pure (.aside .operation)
  | some (.name _) => do
    -- the kind of operation, and its name if it has one
    skip
    if startsName (← current) then skip
    variableDefinitions fuel
    let _ ← directives fuel false maxLevels
    selectionsOr (selectionSet fuel maxLevels) "expected a Selection Set"
    pure (.aside .operation)
  | _ => fail "expected an Operation Type or a Selection Set"

/-- Reads a fragment that has a name.  Its first token is taken whatever it is. -/
def fragmentDefinition (fuel : Nat) : Production Definition := do
  skip
  fragmentName "expected Fragment Name"
  typeCondition
  let _ ← directives fuel false maxLevels
  selectionsOr (selectionSet fuel maxLevels) "expected a Selection Set"
  pure (.aside .fragment)

/-! ## Documents -/

/-- Reads an addition to a type or to the schema, as its second word tells. -/
def extensionDefinition (fuel : Nat) : Production Definition := do
  match ← second with
  | some (.name n) =>
    if n.text = "schema" then
      schemaExtension fuel
    else match Shape.ofKeyword? n.text with
      | some shape => typeExtension fuel shape
      | none => fail "Invalid Type System Extension. This extension cannot be applied."
  | _ => fail "Invalid Type System Extension. This extension cannot be applied."

/-- Reads the definition that a token announces. -/
def definitionFor (fuel : Nat) (opening : Option Token) : Production Definition :=
  match opening with
  | some (.mark .openBrace) => operationDefinition fuel
  | some (.name n) =>
    if n.text = "directive" then directiveDefinition fuel
    else if n.text = "extend" then extensionDefinition fuel
    else if n.text = "fragment" then fragmentDefinition fuel
    else if n.text = "schema" then schemaDefinition fuel
    else if (Operation.ofText? n.text).isSome then operationDefinition fuel
    else match Shape.ofKeyword? n.text with
      | some shape => typeDefinition fuel shape
      | none => fail "expected definition"
  | _ => fail "expected definition"

/-- Reads a definition.  It is announced by its first token, or by the second if
the first one is its description. -/
def definition (fuel : Nat) : Production Definition := do
  match ← current with
  | some (.string _) => do definitionFor fuel (← second)
  | some (.name n) => definitionFor fuel (some (.name n))
  | some (.mark .openBrace) => definitionFor fuel (some (.mark .openBrace))
  | _ => fail "expected a StringValue, Name or OperationDefinition"

/-- Reads a document, which holds at least one definition. -/
def document (fuel : Nat) : Production (List Definition) := do
  if (← current).isSome then
    many fuel Option.isSome (definition fuel)
  else
    fail "Unexpected <EOF>."

/-! ## Reading a text -/

/-- The first fault of a text, and the number of bytes before it. -/
structure SyntaxError where
  offset : Nat
  message : String
  deriving DecidableEq

/-- The words for why a text could not be read. -/
def causeMessage : Cause String → String
  | .flaw message | .refusal message => message
  | .surplus => "expected the end of the text"

/-- The place of a failure among all lexemes of a text. -/
def SyntaxError.ofFailure (all : List Lexeme) (e : Failure String) : SyntaxError :=
  ⟨Lexeme.byteSize all - Lexeme.byteSize e.ahead, causeMessage e.cause⟩

/-- Reads a document from its lexemes. -/
def ofLexemes (ls : List Lexeme) : Except SyntaxError (List Definition) :=
  match (document (ls.countP Lexeme.isToken)).read ls with
  | .ok ds => .ok ds
  | .error e => .error (.ofFailure ls e)

/-- Reads a document from its text. -/
def ofText (text : String) : Except SyntaxError (List Definition) :=
  ofLexemes (scan text.toList)

end SchemaCatalog.Document

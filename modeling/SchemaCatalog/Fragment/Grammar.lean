/-
# The grammar of fragments

Each production is a rule.  Where it refuses what stands next it tells what might
stand there; of optional parts that are not there it tells only those that it names
itself.  The parameter `fuel` bounds the number of items in a sequence and is the
number of tokens of the text; `levels` bounds how deep lists and objects lie in each
other, which the brackets of the text bound as well.
-/
import SchemaCatalog.Fragment.Basic
import SchemaCatalog.Fragment.Fault
import SchemaCatalog.Fragment.Scanner
import SchemaCatalog.Location

namespace SchemaCatalog.Fragment

open Rule

/-- A rule that tells what might stand where it refuses what does. -/
abbrev Production (α : Type) : Type := Rule Stop α

/-! ## Words and marks -/

/-- Refuses what stands next, since one of some other things should. -/
def expect {α : Type} (things : List String) : Production α := .fail (.lacks things)

/-- Refuses the current token as one that cannot be understood. -/
def senseless {α : Type} (reason : String) : Production α :=
  .fail (.complaint (.senseless reason))

/-- Reads a name. -/
def name : Production Name := nameOr (.lacks ["Name"])

/-- Takes a mark that must stand here. -/
def mark (m : Mark) : Production Unit := markOr m (.lacks [m.text])

/-- Reads a string token as what it stands for. -/
def stringOf (text : String) : Production String :=
  match stringValue text with
  | .ok s => do skip; pure s
  | .error fault => .fail (.complaint (.badString fault))
  | .brokenOff => .fail .brokenOff

/-- Reads a description, if there is one. -/
def description : Production (Option String) := do
  match ← current with
  | some (.string text) => do pure (some (← stringOf text))
  | _ => pure none

/-- Reads one item or more between two marks, if the first mark is there.  What may
stand behind an item is `onward`. -/
def between {α : Type} (fuel : Nat) (opening closing : Mark) (starts : Option Token → Bool)
    (item : Production α) (onward : List String) : Production (List α) := do
  if ← takeMark opening then
    let first ← item
    let others ← many fuel starts item
    markOr closing (.lacks onward)
    pure (first :: others)
  else
    pure []

/-! ## References to types -/

/-- How deep lists and objects may lie in each other. -/
def maxLevels : Nat := maxBrackets

/-- Reads a reference to a type whose elements, if it is a list, `element` reads. -/
def typeRefWith (element : Production TypeRef) : Production TypeRef := do
  match ← current with
  | some (.name n) => do
    skip
    pure (.named n (← takeMark .bang))
  | some (.mark .openBracket) => do
    skip
    let t ← element
    mark .closeBracket
    pure (.list t (← takeMark .bang))
  | _ => expect ["Name", "["]

/-- Reads a reference to a type. -/
def typeRef : (levels : Nat) → Production TypeRef
  | 0 => typeRefWith (expect ["fewer levels"])
  | levels + 1 => typeRefWith (typeRef levels)

/-! ## Values and directives -/

/-- The whole number that a token writes. -/
def intOf (text : String) : Int := Decimal.ofSigned text.toList

/-- Reads a token as a whole number, which has to fit into a signed word of 64 bits. -/
def wordOf (text : String) : Production Value :=
  if intOf text < -Nat.pow 2 63 then senseless "number too small to fit in target type"
  else if Nat.pow 2 63 ≤ intOf text then senseless "number too large to fit in target type"
  else do
    skip
    pure (.int (intOf text))

/-- Reads a token as a number with a fraction or an exponent, which has to end in a
digit. -/
def floatOf (text : String) : Production Value :=
  if text.toList.getLast?.any Char.isDigit then do
    skip
    pure (.float (Binary64.ofDecimal (Decimal.ofChars text.toList)))
  else senseless "invalid float literal"

/-- The fields of an object with one more, in the order of their names.  A name
that is there already takes the new value. -/
def insertField (n : Name) (v : Value) : List (Name × Value) → List (Name × Value)
  | [] => [(n, v)]
  | f :: fs =>
    if n.text = f.1.text then (n, v) :: fs
    else if n.text < f.1.text then (n, v) :: f :: fs
    else f :: insertField n v fs

/-- The fields of an object in the order of their names; the last of several with
one name counts. -/
def sortFields (fs : List (Name × Value)) : List (Name × Value) :=
  fs.foldl (fun acc f => insertField f.1 f.2 acc) []

/-- Reads a name, a colon and what stands after it. -/
def named {α : Type} (item : Production α) : Production (Name × α) := do
  let n ← name
  mark .colon
  pure (n, ← item)

/-- What may stand behind a name with its value, before the mark that closes their
sequence. -/
def afterNamed (closing : Mark) : List String := ["Name", ":", closing.text]

/-- Whether a value can begin with a token. -/
def startsValue (constant : Bool) : Option Token → Bool
  | some (.name _) | some (.int _) | some (.float _) | some (.string _)
  | some (.mark .openBracket) | some (.mark .openBrace) => true
  | some (.mark .dollar) => !constant
  | _ => false

/-- What a value may be. -/
def valueThings : List String :=
  ["IntValue", "FloatValue", "StringValue", "BlockString", "true", "false", "null", "Name",
    "[", "\x7b"]

/-- Reads a value whose parts, if it has any, `inner` reads. -/
def valueWith (fuel : Nat) (constant : Bool) (inner : Production Value) : Production Value := do
  match ← current with
  | some (.name n) => do skip; pure (.word n)
  | some (.int text) => wordOf text
  | some (.float text) => floatOf text
  | some (.string text) => do pure (.string (← stringOf text))
  | some (.mark .openBracket) => do
    skip
    let items ← many fuel (startsValue constant) inner
    mark .closeBracket
    pure (.list items)
  | some (.mark .openBrace) => do
    skip
    let fields ← many fuel startsName (named inner)
    markOr .closeBrace (.lacks (afterNamed .closeBrace))
    pure (.object (sortFields fields))
  | some (.mark .dollar) =>
    if constant then
      expect valueThings
    else do
      skip
      pure (.variable (← name))
  | _ => expect valueThings

/-- Reads a value. -/
def value (fuel : Nat) (constant : Bool) : (levels : Nat) → Production Value
  | 0 => valueWith fuel constant (expect ["fewer levels"])
  | levels + 1 => valueWith fuel constant (value fuel constant levels)

/-- Reads the directives that are applied at this place. -/
def directives (fuel : Nat) : Production (List Directive) :=
  many fuel (· = some (.mark .atSign)) do
    skip
    let n ← name
    let args ← between fuel .openParen .closeParen startsName
      (named (value fuel false maxLevels)) (afterNamed .closeParen)
    pure ⟨n, args⟩

/-! ## Members of types -/

/-- Reads an argument of a definition, or a field of an input object. -/
def inputValue (fuel : Nat) : Production InputValue := do
  let d ← description
  let n ← name
  mark .colon
  let t ← typeRef maxLevels
  let v ← do
    if ← takeMark .equals then
      pure (some (← value fuel true maxLevels))
    else
      pure none
  pure ⟨d, n, t, v, ← directives fuel⟩

/-- Reads the arguments of a definition, if there are any. -/
def arguments (fuel : Nat) : Production (List InputValue) :=
  between fuel .openParen .closeParen startsMember (inputValue fuel) [")"]

/-- Reads a field. -/
def field (fuel : Nat) : Production Field := do
  let d ← description
  let n ← name
  let args ← arguments fuel
  mark .colon
  let t ← typeRef maxLevels
  pure ⟨d, n, args, t, ← directives fuel⟩

/-- Reads a value of an enum. -/
def enumValue (fuel : Nat) : Production EnumValue := do
  let d ← description
  let n ← name
  pure ⟨d, n, ← directives fuel⟩

/-- Reads the interfaces that a type implements, if any are declared. -/
def implements (fuel : Nat) : Production (List Name) := do
  if ← takeWord "implements" then
    let _ ← takeMark .ampersand
    separated fuel .ampersand name
  else
    pure []

/-- Reads the members of a union, if any are declared. -/
def unionMembers (fuel : Nat) : Production (List Name) := do
  if ← takeMark .equals then
    let isLed ← takeMark .pipe
    if isLed || startsName (← current) then
      separated fuel .pipe name
    else
      expect ["|", "Name"]
  else
    pure []

/-! ## Definitions of types -/

/-- Reads members between braces, if there are any. -/
def members {α : Type} (fuel : Nat) (item : Production α) (onward : List String) :
    Production (List α) :=
  between fuel .openBrace .closeBrace startsMember item onward

/-- Reads the fields of an object or an interface, if any are declared. -/
def fields (fuel : Nat) : Production (List Field) := members fuel (field fuel) ["\x7d"]

/-- Reads what follows the name of a type. -/
def body (fuel : Nat) : Shape → Production (List Directive × Content)
  | .object => do
    let is ← implements fuel
    let ds ← directives fuel
    pure (ds, .object is (← fields fuel))
  | .interface => do
    let is ← implements fuel
    let ds ← directives fuel
    pure (ds, .interface is (← fields fuel))
  | .scalar => do pure (← directives fuel, .scalar)
  | .union => do
    let ds ← directives fuel
    pure (ds, .union (← unionMembers fuel))
  | .enum => do
    let ds ← directives fuel
    pure (ds, .enum (← members fuel (enumValue fuel) ["Name", "\x7d"]))
  | .inputObject => do
    let ds ← directives fuel
    pure (ds, .inputObject (← members fuel (inputValue fuel) ["\x7d"]))

/-- Whether the body of an extension adds anything.  The interfaces of an
interface do not count. -/
def addsAnything (ds : List Directive) (c : Content) : Bool :=
  !ds.isEmpty ||
    match c with
    | .enum vs => !vs.isEmpty
    | .inputObject fs => !fs.isEmpty
    | .interface _ fs => !fs.isEmpty
    | .object is fs => !is.isEmpty || !fs.isEmpty
    | .scalar => false
    | .union ms => !ms.isEmpty

/-- Reads the definition of a type, its description aside. -/
def typeDefinition (fuel : Nat) (d : Option String) (shape : Shape) : Production Definition := do
  skip
  let n ← name
  let (ds, c) ← body fuel shape
  pure (.type ⟨d, n, ds, c⟩)

/-- The words that announce a type, in the order in which they are tried. -/
def typeWords : List String := ["scalar", "type", "interface", "union", "enum", "input"]

/-- Reads an addition to a type from the word on that tells its shape, and judges
whether it adds anything. -/
def typeExtension (fuel : Nat) : Production (Except Complaint Definition) := do
  match ← current with
  | some (.name w) =>
    match Shape.ofKeyword? w.text with
    | some shape => do
      skip
      let n ← name
      let (ds, c) ← body fuel shape
      if addsAnything ds c then pure (.ok (.extension ⟨n, ds, c⟩))
      else pure (.error (.emptyExtension shape))
    | none => expect typeWords
  | _ => expect typeWords

/-! ## The schema and its directives -/

/-- Lets operations start from types, each at most once; what cannot be done is
gathered behind `faults`. -/
def bindRoots (s : SchemaDefinition) (faults : List RootFault) :
    List (Name × Name) → Except Complaint SchemaDefinition
  | [] => if faults.isEmpty then .ok s else .error (.badRoots faults)
  | (w, n) :: rest =>
    match Operation.ofText? w.text with
    | some o =>
      if (s.root o).isSome then bindRoots s (faults ++ [.repeated o]) rest
      else bindRoots (s.setRoot o n) faults rest
    | none => bindRoots s (faults ++ [.unknown w.text]) rest

/-- Reads the definition of the schema, and judges its entries. -/
def schemaDefinition (fuel : Nat) : Production (Except Complaint Definition) := do
  skip
  let ds ← directives fuel
  mark .openBrace
  let roots ← many fuel startsName (named name)
  markOr .closeBrace (.lacks (afterNamed .closeBrace))
  pure ((bindRoots ⟨ds, none, none, none⟩ [] roots).map .schema)

/-- Reads a place where a directive may be applied. -/
def location : Production Name := do
  match ← current with
  | some (.name n) =>
    if isDirectiveLocation n.text then do
      skip
      pure n
    else
      senseless "invalid directive location"
  | _ => expect ["Name"]

/-- Reads the places where a directive may be applied, if any are given. -/
def locations (fuel : Nat) : Production (List Name) := do
  let isLed ← takeMark .pipe
  if isLed || startsName (← current) then
    separated fuel .pipe location
  else
    pure []

/-- Reads the definition of a directive, its description aside. -/
def directiveDefinition (fuel : Nat) (d : Option String) : Production Definition := do
  skip
  mark .atSign
  let n ← name
  let args ← arguments fuel
  let again ← takeWord "repeatable"
  if ← takeWord "on" then
    pure (.directive ⟨d, n, args, again, ← locations fuel⟩)
  else
    expect (if again then ["on"] else ["repeatable", "on"])

/-! ## Definitions -/

/-- The words that announce a definition which may be described. -/
def describableWords : List String := typeWords ++ ["directive"]

/-- The words that announce a definition. -/
def definitionWords : List String := ["schema", "extend"] ++ describableWords

/-- Reads a definition that may be described, its description aside.  One of some
words has to announce it. -/
def describable (fuel : Nat) (words : List String) (d : Option String) :
    Production Definition := do
  match ← current with
  | some (.name n) =>
    if n.text = "directive" then directiveDefinition fuel d
    else match Shape.ofKeyword? n.text with
      | some shape => typeDefinition fuel d shape
      | none => expect words
  | _ => expect words

/-- Reads a definition with its description, if it has one. -/
def describedDefinition (fuel : Nat) : Production Definition := do
  match ← description with
  | some d => describable fuel describableWords (some d)
  | none => describable fuel definitionWords none

/-- Whether a definition can begin with a token. -/
def startsDefinition : Option Token → Bool
  | some (.name n) => definitionWords.contains n.text
  | some (.string _) => true
  | _ => false

/-! ## Fragments -/

/-- What reading lexemes from a token on yields, and the lexemes behind it. -/
abbrev Reading (α : Type) : Type := Except (Failure Stop) (α × List Lexeme)

/-- Runs a rule that judges what it has read; what it refuses as a whole is refused
where it began. -/
def judge (r : Production (Except Complaint Definition)) (ls : List Lexeme) :
    Reading Definition :=
  match r.run ls with
  | .ok (.ok d, rest) => .ok (d, rest)
  | .ok (.error cause, _) => .error ⟨.refusal (.complaint cause), ls⟩
  | .error e => .error e

/-- Reads a definition. -/
def readDefinition (fuel : Nat) (ls : List Lexeme) : Reading Definition :=
  match headToken ls with
  | some (.name n) =>
    if n.text = "schema" then judge (schemaDefinition fuel) ls
    else if n.text = "extend" then
      -- an extension that adds nothing is refused from its second word on
      match settle ls.tail with
      | .ok rest => judge (typeExtension fuel) rest
      | .error e => .error e
    else (describedDefinition fuel).run ls
  | _ => (describedDefinition fuel).run ls

/-- Reads definitions as long as one begins, at most `count`. -/
def readDefinitions (fuel : Nat) : (count : Nat) → List Lexeme → Reading (List Definition)
  | 0, ls => .ok ([], ls)
  | count + 1, ls =>
    if startsDefinition (headToken ls) then
      match readDefinition fuel ls with
      | .ok (d, rest) =>
        match readDefinitions fuel count rest with
        | .ok (ds, rest) => .ok (d :: ds, rest)
        | .error e => .error e
      | .error e => .error e
    else .ok ([], ls)

/-- Reads a fragment from its first token to its end.  It holds at least one
definition. -/
def readFragment (fuel : Nat) (ls : List Lexeme) : Except (Failure Stop) (List Definition) :=
  match readDefinition fuel ls with
  | .error e => .error e
  | .ok (first, rest) =>
    match readDefinitions fuel fuel rest with
    | .error e => .error e
    | .ok (others, []) => .ok (first :: others)
    | .ok (_, l :: rest) => .error ⟨.surplus, l :: rest⟩

/-- Reads a fragment from its lexemes. -/
def ofLexemes (ls : List Lexeme) : Attempt SyntaxError (List Definition) :=
  let read :=
    match settle ls with
    | .ok ahead => readFragment (ls.countP Lexeme.isToken) ahead
    | .error e => .error e
  match read with
  | .ok ds => .ok ds
  | .error e => failed ls e

/-- Reads a fragment from its text. -/
def ofText (text : String) : Attempt SyntaxError (List Definition) :=
  ofLexemes (scan text.toList)

/-- A fragment that is read is a first definition and others, with nothing behind them. -/
theorem exists_of_ofText {text : String} {ds : List Definition} (h : ofText text = .ok ds) :
    let fuel := (scan text.toList).countP Lexeme.isToken
    ∃ ahead first rest others, settle (ε := Stop) (scan text.toList) = .ok ahead ∧
      readDefinition fuel ahead = .ok (first, rest) ∧
        readDefinitions fuel fuel rest = .ok (others, []) ∧ ds = first :: others := by
  rw [ofText, ofLexemes] at h
  cases hahead : settle (ε := Stop) (scan text.toList) with
  | error e => simp [hahead] at h
  | ok ahead =>
    simp only [hahead, readFragment] at h
    split at h
    · next hread =>
      cases h
      split at hread
      · cases hread
      · next hfirst =>
        split at hread
        · cases hread
        · next hothers =>
          cases hread
          exact ⟨ahead, _, _, _, rfl, hfirst, hothers, rfl⟩
        · cases hread
    · simp at h

end SchemaCatalog.Fragment

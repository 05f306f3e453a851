/-
# Lists of interfaces without separators

Old documents write `implements A B` where the language now has
`implements A & B`.  Repairing a document means to put the missing separators
before the names that follow another name in such a list, and to leave all else
as it is.  A list is entered only by `type X implements` and
`interface X implements`; it ends at the first token that is neither a name nor
a separator, and at a word that opens a definition.
-/
import SchemaCatalog.Document.Scanner
import SchemaCatalog.Log

namespace SchemaCatalog.Document.Implements

/-- The words that open a definition, and so end a list of interfaces that no
body follows. -/
def definitionWords : List String :=
  ["directive", "enum", "extend", "fragment", "input", "interface", "mutation", "query",
    "scalar", "schema", "subscription", "type", "union"]

/-! ## Following the tokens -/

/-- Where a token stands relative to a list of interfaces. -/
inductive Place where
  /-- Outside any list. -/
  | outside
  /-- In a list, where a name is to come. -/
  | expectingName
  /-- In a list, after a name. -/
  | afterName
  deriving DecidableEq

/-- What is known of the tokens passed: the place that they lead to, and the last
two of them if they were names. -/
structure Passed where
  place : Place
  beforeLast : Option Name
  last : Option Name
  deriving DecidableEq

namespace Passed

/-- Nothing has been passed yet. -/
def nothing : Passed := ⟨.outside, none, none⟩

/-- Whether the next token stands directly after the name of an object or an
interface that is being declared. -/
def followsDeclaredName (p : Passed) : Bool :=
  p.last.isSome && p.beforeLast.any fun n => n.text = "type" || n.text = "interface"

/-- The place after a name. -/
def placeAfterName (p : Passed) (n : Name) : Place :=
  match p.place with
  | .outside =>
    if n.text = "implements" && p.followsDeclaredName then .expectingName else .outside
  | .expectingName | .afterName =>
    -- such a word ends the list even where a name is to come
    if n.text ∈ definitionWords then .outside else .afterName

/-- The place after a token. -/
def placeAfter (p : Passed) : Token → Place
  | .name n => p.placeAfterName n
  | .mark .ampersand => if p.place = .outside then .outside else .expectingName
  | _ => .outside

/-- The name that a token is, if it is one. -/
def nameOf? : Token → Option Name
  | .name n => some n
  | _ => none

/-- What is known after one more token. -/
def pass (p : Passed) (t : Token) : Passed :=
  ⟨p.placeAfter t, p.last, nameOf? t⟩

/-- Whether a separator is missing before a token. -/
def lacksSeparator (p : Passed) : Token → Bool
  | .name n => p.place = .afterName && n.text ∉ definitionWords
  | _ => false

end Passed

/-! ## Repairing -/

/-- The lexemes that are put before a name. -/
def separator : List Lexeme :=
  [⟨['&'], .token (.mark .ampersand)⟩, ⟨[' '], .blank⟩]

/-- The lexemes with the missing separators put in. -/
def repairFrom (p : Passed) : List Lexeme → List Lexeme
  | [] => []
  | l :: ls =>
    match l.token? with
    | none => l :: repairFrom p ls
    | some t =>
      if p.lacksSeparator t then separator ++ l :: repairFrom (p.pass t) ls
      else l :: repairFrom (p.pass t) ls

/-- The number of separators that are missing. -/
def missingFrom (p : Passed) : List Lexeme → Nat
  | [] => 0
  | l :: ls =>
    match l.token? with
    | none => missingFrom p ls
    | some t => (if p.lacksSeparator t then 1 else 0) + missingFrom (p.pass t) ls

/-- The number of separators that a text lacks.  A text with a flaw is left to
whoever reports it: nothing counts as missing there. -/
def missing (text : String) : Nat :=
  let ls := scan text.toList
  if ls.any Lexeme.isFlaw then 0 else missingFrom .nothing ls

/-- The text with all separators put in. -/
def repair (text : String) : String :=
  let ls := scan text.toList
  if ls.any Lexeme.isFlaw then text else String.ofList (Lexeme.join (repairFrom .nothing ls))

/-- What is reported about the separators that a text lacks. -/
def log (text : String) : Log :=
  let n := missing text
  if n = 0 then []
  else [.trace ("Inserted " ++ toString n
    ++ " `&` separator(s) into legacy `implements` clauses.")]

end SchemaCatalog.Document.Implements

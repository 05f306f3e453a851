/-
# Faults of a fragment

The first fault of a fragment is told by its line and column, by what stands there,
and by what might stand there instead.  A definition that is well formed but adds
nothing, or binds an operation wrongly, is refused as a whole, at its keyword.  A
reading that breaks off tells no fault.
-/
import SchemaCatalog.Fragment.StringValue
import SchemaCatalog.Rule
import SchemaCatalog.Shape

namespace SchemaCatalog.Fragment

/-! ## Complaints -/

/-- What is wrong with an entry of a schema definition. -/
inductive RootFault where
  /-- An operation that is bound already. -/
  | repeated (operation : Operation)
  /-- A word that is no operation. -/
  | unknown (word : String)
  deriving DecidableEq

/-- Why a rule refuses what stands next, or a definition as a whole. -/
inductive Complaint where
  /-- One of these things should stand here. -/
  | expected (things : List String)
  /-- The token that stands here cannot be understood. -/
  | senseless (reason : String)
  /-- The string that stands here cannot be understood. -/
  | badString (fault : StringFault)
  /-- An addition to a type adds nothing. -/
  | emptyExtension (shape : Shape)
  /-- Entries of a schema definition are wrong. -/
  | badRoots (faults : List RootFault)
  deriving DecidableEq

/-- Why a rule ends before it has read what it should. -/
inductive Stop where
  /-- It refuses what stands next, or a definition as a whole. -/
  | complaint (cause : Complaint)
  /-- The value of a string breaks off, and the reading with it. -/
  | brokenOff
  deriving DecidableEq

/-- One of some things should stand next. -/
def Stop.lacks (things : List String) : Stop := .complaint (.expected things)

/-! ## Places -/

/-- A line of a text and a column of that line, both counted from one. -/
structure Place where
  line : Nat
  column : Nat
  deriving DecidableEq

namespace Place

/-- The place where a text begins. -/
def start : Place := ⟨1, 1⟩

/-- The place where the next line begins. -/
def nextLine (p : Place) : Place := ⟨p.line + 1, 1⟩

/-- The place some columns further on. -/
def right (n : Nat) (p : Place) : Place := ⟨p.line, p.column + n⟩

/-- The place after a character of white space.  A tab is eight columns wide; marks
of encoding and carriage returns take no column. -/
def pastBlank (p : Place) (c : Char) : Place :=
  if c == '\n' then p.nextLine
  else if c == '\t' then p.right 8
  else if c == '\r' || c == '\uFEFF' then p
  else p.right 1

/-- The place after a comment, which takes no column itself. -/
def pastComment (p : Place) (text : List Char) : Place :=
  if text.getLast?.any fun c => c == '\n' || c == '\r' then p.nextLine else p

/-- The place after a character of a token. -/
def pastInner (p : Place) (c : Char) : Place := if c == '\n' then p.nextLine else p.right 1

/-- The place after a lexeme. -/
def past (p : Place) (l : Lexeme) : Place :=
  match l.kind with
  | .blank | .comma =>
    if l.text.head? == some '#' then p.pastComment l.text else l.text.foldl pastBlank p
  | .token _ | .flaw _ | .stray _ => l.text.foldl pastInner p

/-- The place after some lexemes at the beginning of a text. -/
def after (ls : List Lexeme) : Place := ls.foldl past start

end Place

/-! ## Faults as they are told -/

/-- The first fault of a fragment: its place, what should not be, and what may be
there instead. -/
structure SyntaxError where
  place : Place
  unexpected : List String
  expected : List String
  deriving DecidableEq

/-- A text between single quotes. -/
def inQuotes (cs : List Char) : String := "'" ++ String.ofList cs ++ "'"

/-- Why a string cannot be understood, in words. -/
def StringFault.message : StringFault → String
  | unknownEscape c => "bad escaped char " ++ inQuotes [c]
  | cutEscape digits =>
    "\\u must have 4 characters after it, only found " ++ inQuotes digits
  | noCharacter digits => String.ofList digits ++ " is not a valid unicode code point"

/-- What stands at the head of some lexemes. -/
def foundAt : List Lexeme → String
  | [] => "end of input"
  | l :: _ =>
    match l.kind with
    | .stray message | .flaw message => message
    | _ => "\x60" ++ String.ofList l.text ++ "\x60"

/-- What an addition to a type of some shape may consist of. -/
def extensionParts : Shape → String
  | .enum => "directive or value"
  | .inputObject => "directive or field"
  | .interface => "directive or field"
  | .object => "interface, directive or field"
  | .scalar => "directive"
  | .union => "directive or type"

/-- What should not be in a schema definition. -/
def RootFault.message : RootFault → String
  | repeated o => "duplicate " ++ inQuotes o.text.toList ++ " operation"
  | unknown word => "\x60" ++ word ++ "\x60"

/-- What might be in a schema definition instead. -/
def rootsExpected (faults : List RootFault) : List String :=
  if faults.any fun f => match f with
    | .unknown _ => true
    | .repeated _ => false
  then ["query", "mutation", "subscription"] else []

/-- What a complaint says should not be, and what may be there instead. -/
def Complaint.parts (ahead : List Lexeme) : Complaint → List String × List String
  | expected things => ([foundAt ahead], things)
  | senseless reason => ([reason], [])
  | badString fault => ([fault.message], [])
  | emptyExtension shape =>
    ([], [shape.phrase ++ " extension should contain at least one " ++ extensionParts shape])
  | badRoots faults => ((faults.map RootFault.message).eraseDups, rootsExpected faults)

/-- What a failure says should not be, and what may be there instead, unless the reading
broke off.  After the last definition a stray lexeme is passed over in silence. -/
def failureParts? (e : Rule.Failure Stop) : Option (List String × List String) :=
  match e.cause with
  | .flaw message => some ([message], [])
  | .refusal (.complaint c) => some (c.parts e.ahead)
  | .refusal .brokenOff => none
  | .surplus =>
    some (if (Rule.headToken e.ahead).isSome then [foundAt e.ahead] else [], ["end of input"])

/-- What reading a text comes to that fails among all its lexemes. -/
def failed {α : Type} (all : List Lexeme) (e : Rule.Failure Stop) : Attempt SyntaxError α :=
  match failureParts? e with
  | some (unexpected, expected) =>
    .error ⟨Place.after (all.take (all.length - e.ahead.length)), unexpected, expected⟩
  | none => .brokenOff

@[simp] theorem failed_ne_ok {α : Type} (all : List Lexeme) (e : Rule.Failure Stop) (a : α) :
    failed all e ≠ .ok a := by
  unfold failed
  split <;> exact nofun

end SchemaCatalog.Fragment

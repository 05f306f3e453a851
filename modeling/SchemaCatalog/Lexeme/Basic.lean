/-
# Lexemes

A schema text is a sequence of lexemes: the tokens that the grammar sees, what
stands between them, and the pieces that are no lexeme of the language at all.
No character belongs to none of them, so a text can be put together again from
its lexemes and a place in it can be named by the lexemes that follow.
-/
import SchemaCatalog.Name
import SchemaCatalog.Text.Basic

namespace SchemaCatalog

/-! ## Tokens -/

/-- The punctuation of the schema language. -/
inductive Mark where
  | bang
  | dollar
  | ampersand
  | spread
  | colon
  | equals
  | atSign
  | pipe
  | openParen
  | closeParen
  | openBracket
  | closeBracket
  | openBrace
  | closeBrace
  deriving DecidableEq

namespace Mark

/-- How a mark is written. -/
def text : Mark → String
  | bang => "!"
  | dollar => "$"
  | ampersand => "&"
  | spread => "..."
  | colon => ":"
  | equals => "="
  | atSign => "@"
  | pipe => "|"
  | openParen => "("
  | closeParen => ")"
  | openBracket => "["
  | closeBracket => "]"
  | openBrace => "\x7b"
  | closeBrace => "\x7d"

/-- The mark that a single character is, if it is one. -/
def ofChar? (c : Char) : Option Mark :=
  match c with
  | '!' => some bang
  | '$' => some dollar
  | '&' => some ampersand
  | ':' => some colon
  | '=' => some equals
  | '@' => some atSign
  | '|' => some pipe
  | '(' => some openParen
  | ')' => some closeParen
  | '[' => some openBracket
  | ']' => some closeBracket
  | '{' => some openBrace
  | '}' => some closeBrace
  | _ => none

/-- Whether a mark opens a nested part. -/
def isOpening : Mark → Bool
  | openParen | openBracket | openBrace => true
  | _ => false

/-- Whether a mark closes a nested part. -/
def isClosing : Mark → Bool
  | closeParen | closeBracket | closeBrace => true
  | _ => false

end Mark

/-- What the grammar sees of a lexeme.  Numbers and strings are kept as they are
written: what they stand for is the business of whoever reads them. -/
inductive Token where
  | mark (m : Mark)
  | name (n : Name)
  | int (text : String)
  | float (text : String)
  | string (text : String)
  deriving DecidableEq

namespace Token

/-- How a token is written. -/
def text : Token → String
  | mark m => m.text
  | name n => n.text
  | int t | float t | string t => t

/-- Whether a token is a name. -/
def isName : Token → Bool
  | name _ => true
  | _ => false

/-- Whether a token is a string. -/
def isString : Token → Bool
  | string _ => true
  | _ => false

end Token

/-! ## Lexemes -/

/-- The role of a lexeme. -/
inductive Lexeme.Kind where
  /-- White space and comments, which say nothing. -/
  | blank
  /-- A comma, which says nothing either but can be looked at. -/
  | comma
  /-- A token. -/
  | token (t : Token)
  /-- A piece of text that is no lexeme of the language, and why. -/
  | flaw (message : String)
  /-- A piece of text that is no lexeme either, but does no harm before a token is
  looked for in its place. -/
  | stray (message : String)
  deriving DecidableEq

/-- A piece of a text with its role. -/
structure Lexeme where
  /-- The characters of the piece. -/
  text : List Char
  /-- What the piece is. -/
  kind : Lexeme.Kind
  deriving DecidableEq

namespace Lexeme

/-- Whether a lexeme is a piece of text that the language does not have. -/
def isFlaw (l : Lexeme) : Bool :=
  match l.kind with
  | .flaw _ => true
  | _ => false

/-- Whether the grammar sees a lexeme. -/
def isToken (l : Lexeme) : Bool :=
  match l.kind with
  | .token _ => true
  | _ => false

/-- The token that a lexeme is, if it is one. -/
def token? (l : Lexeme) : Option Token :=
  match l.kind with
  | .token t => some t
  | _ => none

/-- The text that a sequence of lexemes makes up. -/
def join (ls : List Lexeme) : List Char :=
  ls.flatMap Lexeme.text

/-- The number of bytes that a sequence of lexemes takes in UTF-8. -/
def byteSize (ls : List Lexeme) : Nat :=
  Text.byteSize (join ls)

@[simp] theorem join_nil : join [] = [] := rfl

@[simp] theorem join_cons (l : Lexeme) (ls : List Lexeme) :
    join (l :: ls) = l.text ++ join ls := rfl

theorem join_append (ls ms : List Lexeme) : join (ls ++ ms) = join ls ++ join ms := by
  simp [join]

/-- Sizes add up. -/
theorem byteSize_append (ls ms : List Lexeme) :
    byteSize (ls ++ ms) = byteSize ls + byteSize ms := by
  simp [byteSize, join_append, Text.byteSize_append]

end Lexeme

end SchemaCatalog

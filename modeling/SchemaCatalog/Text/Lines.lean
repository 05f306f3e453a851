/-
# Lines

Cutting a text into lines and putting lines together again.  Languages differ in
what ends a line, so there are two cuts here: at every kind of line end, and at
line feeds alone.
-/
import SchemaCatalog.Text.Basic

namespace SchemaCatalog.Text

/-! ## Cutting -/

/-- The lines of a text that end at a carriage return, a line feed, or the one
followed by the other.  There is always one line more than there are ends. -/
def splitLines : List Char → List (List Char)
  | [] => [[]]
  | '\r' :: '\n' :: cs => [] :: splitLines cs
  | c :: cs =>
    if c == '\r' || c == '\n' then [] :: splitLines cs
    else consFirst c (splitLines cs)

/-- A line without the carriage return that it may end in. -/
def dropReturn (line : List Char) : List Char :=
  if line.getLast? = some '\r' then line.dropLast else line

/-- The lines of a text that end at a line feed, before which a carriage return
is part of the end.  What follows the last line feed is a line unless it is
empty. -/
def feedLines (cs : List Char) : List (List Char) :=
  let lines := pieces '\n' cs
  lines.dropLast.map dropReturn ++ (lines.getLast?.toList.filter (· ≠ []))

/-! ## Putting together -/

/-- Lines with a line feed between them. -/
def joinLines (ls : List (List Char)) : List Char :=
  ['\n'].intercalate ls

/-- Lines without those for which `blank` holds at both ends. -/
def trimLines {α : Type} (blank : α → Bool) (ls : List α) : List α :=
  ((ls.dropWhile blank).reverse.dropWhile blank).reverse

/-- A text in which an escaped triple quote stands for itself. -/
def unescapeTripleQuotes : List Char → List Char
  | '\\' :: '"' :: '"' :: '"' :: cs => '"' :: '"' :: '"' :: unescapeTripleQuotes cs
  | c :: cs => c :: unescapeTripleQuotes cs
  | [] => []

/-- A text in which every triple quote is escaped. -/
def escapeTripleQuotes : List Char → List Char
  | '"' :: '"' :: '"' :: cs => '\\' :: '"' :: '"' :: '"' :: escapeTripleQuotes cs
  | c :: cs => c :: escapeTripleQuotes cs
  | [] => []

end SchemaCatalog.Text

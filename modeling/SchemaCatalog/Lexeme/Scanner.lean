/-
# Scanning a text into lexemes

A `Scanner` reads one character at a time.  Inside a lexeme it keeps a state;
the lexeme ends before the first character that its state refuses, and the next
lexeme starts there.  So where a lexeme ends depends on its own text and on one
character more, and on nothing else.
-/
import SchemaCatalog.Lexeme.Basic

namespace SchemaCatalog

/-- How lexemes are told from their characters. -/
structure Scanner where
  /-- What is remembered inside a lexeme. -/
  State : Type
  /-- The state after a lexeme's first character. -/
  start : Char → State
  /-- The state after one more character, or `none` if the lexeme ends before it. -/
  next : State → Char → Option State
  /-- What a lexeme with this text is, when it ends in this state. -/
  finish : State → List Char → Lexeme.Kind

namespace Scanner

variable (S : Scanner)

/-- The lexeme that ends in a state, its characters read last first. -/
def close (st : S.State) (read : List Char) : Lexeme :=
  ⟨read.reverse, S.finish st read.reverse⟩

/-- The lexemes of a text whose first one has already been entered: `read` holds
the characters taken so far, the last one first. -/
def scanFrom (st : S.State) (read : List Char) : List Char → List Lexeme
  | [] => [S.close st read]
  | c :: cs =>
    match S.next st c with
    | some st' => scanFrom st' (c :: read) cs
    | none => S.close st read :: scanFrom (S.start c) [c] cs

/-- The lexemes of a text. -/
def scan : List Char → List Lexeme
  | [] => []
  | c :: cs => S.scanFrom (S.start c) [c] cs

/-! ## Nothing is lost -/

theorem join_scanFrom (st : S.State) (read cs : List Char) :
    Lexeme.join (S.scanFrom st read cs) = read.reverse ++ cs := by
  induction cs generalizing st read with
  | nil => simp [scanFrom, close]
  | cons c cs ih =>
    rw [scanFrom]
    split
    · rw [ih]; simp
    · rw [Lexeme.join_cons, ih]; simp [close]

/-- The lexemes of a text, put together, are the text. -/
theorem join_scan (cs : List Char) : Lexeme.join (S.scan cs) = cs := by
  cases cs with
  | nil => rfl
  | cons c cs => simp [scan, join_scanFrom]

end Scanner

end SchemaCatalog

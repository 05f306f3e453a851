/-
# Grammar rules

A rule reads a sequence of tokens.  It is a program of few requests: look at the
current token, look past it, take it, or fail.  What a rule can do to its input
is therefore settled once, in `Rule.run`, and not in each production.

Two faults can end a reading: the rule refuses what stands next, or a lexeme that
the language does not have is met when the reader moves on to it.  The second is
found first, since the reader moves on as soon as a token is taken.  Only stray
lexemes wait until a rule refuses them.
-/
import SchemaCatalog.Lexeme.Basic

namespace SchemaCatalog

/-! ## Rules -/

/-- A program over the tokens that lie ahead, which says by an `ε` why it refuses
them. -/
inductive Rule (ε α : Type) where
  /-- Ends with a result. -/
  | done (result : α)
  /-- Refuses what stands next. -/
  | fail (complaint : ε)
  /-- Goes on as the current token tells, `none` being the end of the text or a
  stray lexeme. -/
  | look (go : Option Token → Rule ε α)
  /-- Goes on as the token after the current one tells; a comma there, like the
  end of the text, is `none`. -/
  | lookPast (go : Option Token → Rule ε α)
  /-- Takes the current token. -/
  | take (go : Rule ε α)

namespace Rule

variable {ε α β : Type}

/-- One rule after the other. -/
def bind : Rule ε α → (α → Rule ε β) → Rule ε β
  | done a, f => f a
  | fail m, _ => fail m
  | look k, f => look fun t => (k t).bind f
  | lookPast k, f => lookPast fun t => (k t).bind f
  | take k, f => take (k.bind f)

instance : Monad (Rule ε) where
  pure := done
  bind := bind

/-- Ending changes nothing in what came before. -/
theorem bind_done (r : Rule ε α) : r.bind done = r := by
  induction r with
  | done a => rfl
  | fail m => rfl
  | look k ih => simp [bind, ih]
  | lookPast k ih => simp [bind, ih]
  | take k ih => simp [bind, ih]

/-- It does not matter how rules that follow each other are grouped. -/
theorem bind_assoc {γ : Type} (r : Rule ε α) (f : α → Rule ε β) (g : β → Rule ε γ) :
    (r.bind f).bind g = r.bind fun a => (f a).bind g := by
  induction r with
  | done a => rfl
  | fail m => rfl
  | look k ih => simp [bind, ih]
  | lookPast k ih => simp [bind, ih]
  | take k ih => simp [bind, ih]

/-! ## Beginnings -/

/-- Whether a token is a name. -/
def startsName (t : Option Token) : Bool := t.any Token.isName

/-- Whether a member of a definition can begin with a token: its description or
its name. -/
def startsMember (t : Option Token) : Bool := t.any fun t => t.isString || t.isName

/-! ## The requests as rules -/

/-- The current token. -/
def current : Rule ε (Option Token) := look done

/-- The token after the current one. -/
def second : Rule ε (Option Token) := lookPast done

/-- Moves past the current token. -/
def skip : Rule ε Unit := take (done ())

/-- Whether the current token is a given mark; if it is, it is taken. -/
def takeMark (m : Mark) : Rule ε Bool := do
  if (← current) = some (.mark m) then
    skip
    pure true
  else
    pure false

/-- Reads items as long as the current token may begin one.  At most `fuel` items
are read; as each takes a token, a text holds no more of them than tokens. -/
def manyFrom (starts : Option Token → Bool) (item : Rule ε α) : Nat → List α → Rule ε (List α)
  | 0, read => pure read.reverse
  | fuel + 1, read => do
    if starts (← current) then
      let x ← item
      manyFrom starts item fuel (x :: read)
    else
      pure read.reverse

/-- Reads items as long as the current token may begin one. -/
def many (fuel : Nat) (starts : Option Token → Bool) (item : Rule ε α) : Rule ε (List α) :=
  manyFrom starts item fuel []

/-- Reads a name, or refuses what stands there instead. -/
def nameOr (complaint : ε) : Rule ε Name := do
  match ← current with
  | some (.name n) => do skip; pure n
  | _ => fail complaint

/-- Takes a mark, or refuses what stands there instead. -/
def markOr (m : Mark) (complaint : ε) : Rule ε Unit := do
  if (← current) = some (.mark m) then skip else fail complaint

/-- Whether the current token is a given word; if it is, it is taken. -/
def takeWord (word : String) : Rule ε Bool := do
  match ← current with
  | some (.name n) => if n.text = word then do skip; pure true else pure false
  | _ => pure false

/-- Reads one item, and a further one after each mark `m`. -/
def separated (fuel : Nat) (m : Mark) (item : Rule ε α) : Rule ε (List α) := do
  let first ← item
  let others ← many fuel (· = some (.mark m)) (do skip; item)
  pure (first :: others)

/-! ## Running a rule -/

/-- Why a text could not be read. -/
inductive Cause (ε : Type) where
  /-- There is a lexeme that the language does not have. -/
  | flaw (message : String)
  /-- A rule refuses what stands next. -/
  | refusal (complaint : ε)
  /-- The text goes on where the rule has come to its end. -/
  | surplus
  deriving DecidableEq

/-- Why a text could not be read, and the lexemes that lie ahead where it stopped. -/
structure Failure (ε : Type) where
  cause : Cause ε
  ahead : List Lexeme
  deriving DecidableEq

/-- The lexemes from the next token or stray lexeme on, or the flaw that comes
before it. -/
def settle : List Lexeme → Except (Failure ε) (List Lexeme)
  | [] => .ok []
  | l :: ls =>
    match l.kind with
    | .blank | .comma => settle ls
    -- a stray lexeme waits for the rule that refuses it
    | .token _ | .stray _ => .ok (l :: ls)
    | .flaw message => .error ⟨.flaw message, l :: ls⟩

/-- The token at the head of some lexemes. -/
def headToken : List Lexeme → Option Token
  | [] => none
  | l :: _ => l.token?

/-- The token or comma that comes next, white space and what is no token left
aside. -/
def tokenPast : List Lexeme → Option Token
  | [] => none
  | l :: ls =>
    match l.kind with
    | .blank | .flaw _ | .stray _ => tokenPast ls
    -- white space is passed, but a comma counts as what comes next
    | .comma => none
    | .token t => some t

/-- Runs a rule on lexemes whose first one is the current token. -/
def run : Rule ε α → List Lexeme → Except (Failure ε) (α × List Lexeme)
  | done a, ls => .ok (a, ls)
  | fail complaint, ls => .error ⟨.refusal complaint, ls⟩
  | look k, ls => (k (headToken ls)).run ls
  | lookPast k, ls => (k (tokenPast ls.tail)).run ls
  | take k, ls =>
    match settle ls.tail with
    | .ok rest => k.run rest
    | .error e => .error e

/-- Reads lexemes from their first token to their last. -/
def read (r : Rule ε α) (ls : List Lexeme) : Except (Failure ε) α :=
  match settle ls with
  | .error e => .error e
  | .ok ahead =>
    match r.run ahead with
    | .ok (a, []) => .ok a
    | .ok (_, l :: rest) => .error ⟨.surplus, l :: rest⟩
    | .error e => .error e

end Rule

end SchemaCatalog

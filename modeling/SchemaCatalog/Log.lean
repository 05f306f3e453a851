/-
# Log entries

What a run reports about itself, besides its result.
-/

namespace SchemaCatalog

/-- How important a log entry is. -/
inductive Log.Level where
  | trace
  | debug
  | info
  | warn
  deriving DecidableEq

/-- The name of a level. -/
def Log.Level.text : Log.Level → String
  | trace => "TRACE"
  | debug => "DEBUG"
  | info => "INFO"
  | warn => "WARN"

/-- The rank of a level, from the least important on. -/
def Log.Level.rank : Log.Level → Nat
  | trace => 0
  | debug => 1
  | info => 2
  | warn => 3

/-- One line of a log. -/
structure Log.Entry where
  level : Log.Level
  text : String
  deriving DecidableEq

/-- The lines that a run reports, in order. -/
abbrev Log := List Log.Entry

namespace Log

/-- An entry of the finest level. -/
def Entry.trace (text : String) : Entry := ⟨.trace, text⟩

/-- An entry about the course of a run. -/
def Entry.debug (text : String) : Entry := ⟨.debug, text⟩

/-- An entry about something that may be amiss. -/
def Entry.warn (text : String) : Entry := ⟨.warn, text⟩

/-- The entries that a reader who asks for a level gets to see. -/
def visibleAt (level : Level) (log : Log) : Log :=
  log.filter fun e => level.rank ≤ e.level.rank

end Log

end SchemaCatalog

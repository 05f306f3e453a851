/-
# The level of the log

The environment can ask for a level by name.  A name that is not known is
reported and leaves the level as it is by default.
-/
import SchemaCatalog.Log
import SchemaCatalog.Text.Blank

namespace SchemaCatalog.Log.Level

/-- The level that is used if none is asked for. -/
def default : Level := info

/-- The level of a given name. -/
def ofName? (name : String) : Option Level :=
  if name ∈ ["DEBUG", "debug", "VERBOSE", "verbose"] then some debug
  else if name ∈ ["INFO", "info"] then some info
  else if name ∈ ["TRACE", "trace"] then some trace
  else if name ∈ ["WARN", "warn"] then some warn
  else none

/-- The level that a setting asks for, and a warning if it asks for none that is
known.  White space around the name does not count. -/
def ofSetting (setting : Option String) : Level × Option String :=
  match setting with
  | none => (default, none)
  | some value =>
    let name := Text.trim value
    match ofName? name with
    | some level => (level, none)
    | none =>
      (default, some ("Invalid `LOG_LEVEL` environment variable value: `" ++ name ++ "`"))

end SchemaCatalog.Log.Level

/-
# Sources of schemas

A schema comes as a text, as several texts, as a fragment that has been read
already, as an answer to an introspection query, or as a schema built from one.
Each of these is brought into the form of one text, and that text is catalogued.
Only reading fragments can break off.
-/
import SchemaCatalog.Catalog.Assembly
import SchemaCatalog.Introspection.Printer

namespace SchemaCatalog

/-- A schema in one of the forms that it can come in. -/
inductive Source where
  | text (text : String)
  | fragments (texts : List String)
  | document (definitions : List Fragment.Definition)
  | introspection (answer : Json)
  | schema (schema : Introspection.Schema)

namespace Source

/-- The name of a form. -/
def formName : Source → String
  | text _ => "SDL text"
  | fragments _ => "SDL fragments"
  | document _ => "parsed document"
  | introspection _ => "introspection result"
  | schema _ => "built schema"

/-! ## One text -/

/-- An answer without the envelope that it may come in.  An envelope whose content
is missing counts as the answer itself, less the empty content. -/
def openEnvelope : Json → Json
  | .object ms =>
    match ms.lookup "data" with
    -- a content that is null is left out of the answer
    | some data => if data.isNull then .object (ms.filter fun m => m.1 ≠ "data") else data
    | none => .object ms
  | v => v

/-- The text of the schema that an answer holds. -/
def textOfAnswer (v : Json) : Except Error String :=
  match Introspection.Answer.ofJson (openEnvelope v) with
  | .error e => .error (.decoding e)
  | .ok answer =>
    match Introspection.Schema.ofAnswer answer with
    | .error e => .error (.building e)
    | .ok s => .ok s.write

/-- The one text that a source comes down to. -/
def toText : Source → Attempt Error String
  | text t => .ok t
  | fragments ts => (Fragment.mergedText ts).mapError .merging
  | document ds => .ok (Fragment.write ds)
  | introspection v => .ofExcept (textOfAnswer v)
  | schema s => .ok s.write

/-- What is reported while a source is brought down to one text. -/
def toTextLog (s : Source) : Log :=
  .debug ("Normalizing schema source (" ++ s.formName ++ ") to SDL.") ::
    match s with
    | fragments ts => Fragment.mergeLog ts
    | _ => []

/-! ## The catalog -/

/-- The catalog of a source. -/
def catalog (s : Source) : Attempt Error Catalog :=
  s.toText.bind fun t => .ofExcept (Catalog.ofText t)

/-- What is reported while a source is catalogued. -/
def log (s : Source) : Log :=
  s.toTextLog ++
    match s.toText with
    | .ok t => Catalog.textLog t
    | .error _ | .brokenOff => []

end Source

end SchemaCatalog

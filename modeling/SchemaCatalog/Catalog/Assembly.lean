/-
# From text to catalog

A text is repaired and read, and its definitions are put into an outline; the
types of the outline become entries, the entries are linked, and the operations
are bound.
-/
import SchemaCatalog.Catalog.Links
import SchemaCatalog.Catalog.Operations
import SchemaCatalog.Catalog.Entries
import SchemaCatalog.Error

namespace SchemaCatalog

open Document (Outline Definition)

namespace Catalog

/-- The entries of all types of a document, linked to each other. -/
def typesOf (o : Outline) : Table TypeEntry := linkImplementors (entriesOf o)

/-- The catalog of an outlined document. -/
def ofOutline (o : Outline) : Except BindingError Catalog :=
  match o.schema with
  | none => .ok ⟨typesOf o, o.directiveNames, none⟩
  | some s =>
    match Bindings.ofRoots (typesOf o) s.operations with
    | .ok b => .ok ⟨typesOf o, o.directiveNames, some b⟩
    | .error e => .error e

/-- The catalog of a sequence of definitions. -/
def ofDefinitions (ds : List Definition) : Except Error Catalog :=
  match Outline.ofDefinitions ds with
  | .error e => .error (.repetition e)
  | .ok o =>
    match ofOutline o with
    | .error e => .error (.binding e)
    | .ok catalog => .ok catalog

/-- The definitions of a text, with the separators put in that its lists of
interfaces lack. -/
def definitionsOf (text : String) : Except Document.SyntaxError (List Definition) :=
  Document.ofText (Document.Implements.repair text)

/-- The catalog of a text. -/
def ofText (text : String) : Except Error Catalog :=
  match definitionsOf text with
  | .error e => .error (.parsing e)
  | .ok ds => ofDefinitions ds

/-! ## What is reported -/

/-- What is reported once a document has been outlined. -/
def assemblyLog (o : Outline) : Log :=
  entriesLog o ++ linkLog (entriesOf o) ++
    match o.schema with
    | none => []
    | some s => Bindings.logFrom (typesOf o) .empty s.operations

/-- What is reported about a sequence of definitions. -/
def definitionsLog (ds : List Definition) : Log :=
  Outline.empty.logFrom ds ++
    match Outline.ofDefinitions ds with
    | .error _ => []
    | .ok o => assemblyLog o

/-- What is reported about a text. -/
def textLog (text : String) : Log :=
  Document.Implements.log text ++
    match definitionsOf text with
    | .error _ => []
    | .ok ds => definitionsLog ds

end Catalog

end SchemaCatalog

/-
# Outlines of documents

An outline sorts the definitions of a document by role: the schema, the
directives, and for each type the node that declares it together with all that
adds to it.  A document has no outline if it defines one thing twice.
-/
import SchemaCatalog.Document.Basic
import SchemaCatalog.Table
import SchemaCatalog.Log

namespace SchemaCatalog.Document

/-- The nodes that speak of one type, in document order.  The first one declares
it; it is an extension if no definition came before. -/
structure Declaration where
  primary : TypeNode
  additions : List TypeNode

/-- All nodes of a declaration. -/
def Declaration.nodes (d : Declaration) : List TypeNode :=
  d.primary :: d.additions

/-- A declaration with one addition more. -/
def Declaration.add (d : Declaration) (n : TypeNode) : Declaration :=
  { d with additions := d.additions ++ [n] }

/-- What a document may contain only once. -/
inductive Repetition where
  | schemaDefinition
  | typeDefinition (name : String)
  deriving DecidableEq

/-- How a repetition is reported. -/
def Repetition.message : Repetition → String
  | schemaDefinition => "Must provide only one schema definition."
  | typeDefinition name => "Type \"" ++ name ++ "\" was defined more than once."

/-- The definitions of a document by role. -/
structure Outline where
  schema : Option SchemaNode
  directives : List DirectiveNode
  types : Table Declaration

namespace Outline

/-- The outline of the empty document. -/
def empty : Outline := ⟨none, [], Table.empty⟩

/-- Lets a node declare its type. -/
def declare (o : Outline) (n : TypeNode) : Outline :=
  { o with types := o.types.insert n.name.text ⟨n, []⟩ }

/-- Lets a node add to a type that is declared. -/
def extend (o : Outline) (n : TypeNode) : Outline :=
  { o with types := o.types.modify n.name.text (·.add n) }

/-- Adds a node that speaks of a type.  A definition must come before everything
else that is said of its type; an extension may come alone. -/
def addType (o : Outline) (n : TypeNode) : Except Repetition Outline :=
  if o.types.contains n.name.text then
    if n.isExtension then .ok (o.extend n) else .error (.typeDefinition n.name.text)
  else
    .ok (o.declare n)

/-- Adds a definition. -/
def add (o : Outline) : Definition → Except Repetition Outline
  | .schema s => if o.schema.isSome then .error .schemaDefinition else .ok { o with schema := s }
  | .type n => o.addType n
  | .directive d => .ok { o with directives := o.directives ++ [d] }
  | .aside _ => .ok o

/-- The outline of a sequence of definitions. -/
def ofDefinitions (ds : List Definition) : Except Repetition Outline :=
  ds.foldlM add empty

/-- The names of the directives that are defined, in document order. -/
def directiveNames (o : Outline) : List String :=
  o.directives.map (·.name.text)

/-! ## What is reported -/

/-- What is reported when a definition is added. -/
def note (o : Outline) : Definition → Log
  | .type n =>
    if !n.isExtension then []
    else if o.types.contains n.name.text then
      [.trace ("Merging `" ++ n.kind.text ++ "` into existing `" ++ n.name.text ++ "`.")]
    else
      [.trace ("`" ++ n.kind.text ++ "` of undeclared type `" ++ n.name.text
        ++ "` registered as its primary declaration.")]
  | .aside a => [.trace ("Ignoring " ++ a.text ++ ".")]
  | .schema _ | .directive _ => []

/-- What is reported when all definitions have been added. -/
def summary (o : Outline) : Log.Entry :=
  .debug ("Classified " ++ toString o.types.size ++ " type(s) and "
    ++ toString o.directives.length ++ " directive definition(s) (schema block: "
    ++ toString o.schema.isSome ++ ").")

/-- What is reported when definitions are added one after the other. -/
def logFrom (o : Outline) : List Definition → Log
  | [] => [o.summary]
  | d :: ds =>
    o.note d ++
      match o.add d with
      | .ok o' => logFrom o' ds
      | .error _ => []

end Outline

end SchemaCatalog.Document

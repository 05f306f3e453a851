/-
# The operations of a schema

A schema definition binds operations to types.  No operation may be bound twice,
and every type must be one of the catalog; where an entry breaks both rules the
first is reported.
-/
import SchemaCatalog.Catalog.Basic
import SchemaCatalog.Document.Basic
import SchemaCatalog.Log

namespace SchemaCatalog

open Document (RootOperation)

/-- Why an entry of a schema definition cannot be bound. -/
inductive BindingError where
  | repeated (operation : Operation)
  | unresolved (operation : Operation) (typeName : String)
  deriving DecidableEq

/-- How such an entry is reported. -/
def BindingError.message : BindingError → String
  | repeated o => "Must provide only one " ++ o.text ++ " type in schema."
  | unresolved o typeName =>
    "Specified " ++ o.text ++ " type \"" ++ typeName ++ "\" not found in document."

/-- The name of the type that an entry gives, empty if it gives none. -/
def typeNameOf (e : RootOperation) : String :=
  (e.typeName.map Name.text).getD ""

namespace Bindings

/-- Adds the binding of one entry. -/
def addRoot (types : Table TypeEntry) (b : Bindings) (e : RootOperation) :
    Except BindingError Bindings :=
  if (b.get e.operation).isSome then .error (.repeated e.operation)
  else if types.contains (typeNameOf e) then .ok (b.bind e.operation (typeNameOf e))
  else .error (.unresolved e.operation (typeNameOf e))

/-- The bindings that the entries of a schema definition make. -/
def ofRoots (types : Table TypeEntry) (es : List RootOperation) :
    Except BindingError Bindings :=
  es.foldlM (addRoot types) empty

/-- What is reported about the entries, up to the first that cannot be bound. -/
def logFrom (types : Table TypeEntry) (b : Bindings) : List RootOperation → Log
  | [] => []
  | e :: es =>
    match addRoot types b e with
    | .ok b' =>
      .trace ("Bound `" ++ e.operation.text ++ "` operation to `" ++ typeNameOf e ++ "`.")
        :: logFrom types b' es
    | .error _ => []

end Bindings

end SchemaCatalog

/-
# Links between interfaces and their implementors

A type names the interfaces that it implements.  Linking writes the way back:
each interface also lists the types that name it.  Only what the types declare
themselves counts, not what linking adds.
-/
import SchemaCatalog.Catalog.Basic
import SchemaCatalog.Log

namespace SchemaCatalog

/-- The declaration of one type that it implements another.  Both are given by their
places in a table. -/
structure Link where
  implementor : Nat
  target : Nat
  deriving DecidableEq

namespace Link

/-- The links that the types of a table declare to types of the table, in order. -/
def declared (types : Table TypeEntry) : List Link :=
  types.rows.zipIdx.flatMap fun e =>
    (e.1.2.interfaces.filterMap types.indexOf?).map fun target => ⟨e.2, target⟩

/-- Writes the way back of one link, if its target is an interface. -/
def apply (types : Table TypeEntry) (l : Link) : Table TypeEntry :=
  match types.rows[l.implementor]? with
  | none => types
  | some (name, _) =>
    types.modifyAt l.target fun r => if r.kind.isInterface then r.addInterface name else r

/-- What is reported about the declaration of a type that it implements another type,
whose kind is given. -/
def note (implementor target : String) (kind : EntryKind) : Log.Entry :=
  if kind.isInterface then
    .trace ("`" ++ implementor ++ "` implements interface `" ++ target ++ "`.")
  else
    .trace ("`" ++ implementor ++ "` lists `" ++ target
      ++ "` as an interface, but it is a `" ++ kind.text ++ "`; no back-link added.")

/-- What is reported about a link in a table. -/
def note? (types : Table TypeEntry) (l : Link) : Option Log.Entry :=
  match types.rows[l.implementor]?, types.rows[l.target]? with
  | some (implementor, _), some (target, r) => some (note implementor target r.kind)
  | _, _ => none

end Link

/-- Lets every interface of a table list its implementors. -/
def linkImplementors (types : Table TypeEntry) : Table TypeEntry :=
  -- the links are those of the table as it was before any of them is written
  (Link.declared types).foldl Link.apply types

/-- What is reported about the links of a table. -/
def linkLog (types : Table TypeEntry) : Log :=
  (Link.declared types).filterMap (Link.note? types)

end SchemaCatalog

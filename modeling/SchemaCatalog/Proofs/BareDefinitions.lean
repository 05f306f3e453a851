/-
# What a catalog takes from a definition

A catalog has no use for values, nor for the descriptions of fields, of arguments and of the
values of enums.  Definitions of a fragment and of a document are compared by what is left of
them without these, and by the descriptions of types.
-/
import SchemaCatalog.Catalog.Entries
import SchemaCatalog.Proofs.FragmentMentions
import SchemaCatalog.Proofs.PlainDefinitions

namespace SchemaCatalog

namespace Document

/-! ## Bare parts of documents -/

/-- A directive without its arguments. -/
def Directive.bare (d : Directive) : Directive := ⟨d.name, []⟩

/-- An argument, or a field of an input object, without its description and its default. -/
def InputValue.bare (v : InputValue) : InputValue :=
  ⟨none, v.name, v.type, none, v.directives.map Directive.bare⟩

/-- A field without descriptions and values. -/
def Field.bare (f : Field) : Field :=
  ⟨none, f.name, f.arguments.map InputValue.bare, f.type, f.directives.map Directive.bare⟩

/-- A value of an enum without its description. -/
def EnumValue.bare (v : EnumValue) : EnumValue := ⟨none, v.name, v.directives.map Directive.bare⟩

/-- What a node says about its type, without descriptions and values. -/
def Content.bare : Content → Content
  | .enum vs => .enum (vs.map EnumValue.bare)
  | .inputObject fs => .inputObject (fs.map InputValue.bare)
  | .interface is fs => .interface is (fs.map Field.bare)
  | .object is fs => .object is (fs.map Field.bare)
  | .scalar => .scalar
  | .union ms => .union ms

/-- What is dropped from the content of a type does not tell its shape. -/
@[simp] theorem Content.shape_bare (c : Content) : c.bare.shape = c.shape := by
  cases c <;> rfl

/-- The interfaces of a type are kept. -/
@[simp] theorem Content.interfaces_bare (c : Content) : c.bare.interfaces = c.interfaces := by
  cases c <;> rfl

end Document

/-! ## Entries from bare parts -/

open Document (Directive)

/-- Whether directives mark something as deprecated is told by their names alone. -/
theorem marksDeprecated_bare (ds : List Directive) :
    marksDeprecated (ds.map Directive.bare) = marksDeprecated ds := by
  rw [marksDeprecated, List.any_map]
  rfl

theorem ArgumentEntry.ofInputValue_bare (v : Document.InputValue) :
    ofInputValue v.bare = ofInputValue v := by
  simp [ofInputValue, Document.InputValue.bare, marksDeprecated_bare]

theorem FieldEntry.ofInputValue_bare (v : Document.InputValue) :
    ofInputValue v.bare = ofInputValue v := by
  simp [ofInputValue, Document.InputValue.bare, marksDeprecated_bare]

/-- The entry of a field takes no values and no descriptions from it. -/
theorem FieldEntry.ofField_bare (f : Document.Field) : ofField f.bare = ofField f := by
  simp [ofField, Document.Field.bare, marksDeprecated_bare, ArgumentEntry.ofInputValue_bare]

@[simp] theorem fieldsOf?_bare (c : Document.Content) : fieldsOf? c.bare = fieldsOf? c := by
  cases c <;> simp [fieldsOf?, Document.Content.bare, FieldEntry.ofField_bare,
    FieldEntry.ofInputValue_bare]

@[simp] theorem valuesOf?_bare (c : Document.Content) : valuesOf? c.bare = valuesOf? c := by
  cases c <;> simp [valuesOf?, Document.Content.bare, Document.EnumValue.bare]

@[simp] theorem membersOf?_bare (c : Document.Content) : membersOf? c.bare = membersOf? c := by
  cases c <;> rfl

namespace Fragment

/-! ## Bare parts of fragments -/

/-- A directive of a fragment, as a document has it, without its arguments. -/
def Directive.bare (d : Directive) : Document.Directive := ⟨d.name, []⟩

/-- An argument, or a field of an input object, without its description and its default. -/
def InputValue.bare (v : InputValue) : Document.InputValue :=
  ⟨none, v.name, v.type, none, v.directives.map Directive.bare⟩

/-- A field without descriptions and values. -/
def Field.bare (f : Field) : Document.Field :=
  ⟨none, f.name, f.arguments.map InputValue.bare, f.type, f.directives.map Directive.bare⟩

/-- A value of an enum without its description. -/
def EnumValue.bare (v : EnumValue) : Document.EnumValue :=
  ⟨none, v.name, v.directives.map Directive.bare⟩

/-- What is said of a type, without descriptions and values. -/
def Content.bare : Content → Document.Content
  | .enum vs => .enum (vs.map EnumValue.bare)
  | .inputObject fs => .inputObject (fs.map InputValue.bare)
  | .interface is fs => .interface is (fs.map Field.bare)
  | .object is fs => .object is (fs.map Field.bare)
  | .scalar => .scalar
  | .union ms => .union ms

/-! ## Definitions of a fragment and of a document -/

open Document (TypeNode SchemaNode DirectiveNode)

/-- Whether a definition of a document says of types, operations and directives what a
definition of a fragment says, and describes a type by words that are related to those of the
fragment. -/
inductive ReadAs (W : Option String → Option String → Prop) :
    Definition → Document.Definition → Prop
  | schema {s : SchemaDefinition} {n : SchemaNode}
      (operations : n.operations.Perm s.operations) : ReadAs W (.schema s) (.schema n)
  | type {t : TypeDefinition} {n : TypeNode} {d : Option String}
      (role : n.role = .definition d) (words : W t.description d) (name : n.name = t.name)
      (content : n.content.bare = t.content.bare) : ReadAs W (.type t) (.type n)
  | extension {e : TypeExtension} {n : TypeNode} (role : n.role = .extension)
      (name : n.name = e.name) (content : n.content.bare = e.content.bare) :
      ReadAs W (.extension e) (.type n)
  | directive {d : DirectiveDefinition} {n : DirectiveNode} (name : n.name = d.name) :
      ReadAs W (.directive d) (.directive n)

/-! ## Definitions that are read back -/

/-- Of a directive that is read back, all but the values is as it was. -/
theorem bare_reread_directive {indent : Nat} (d : Directive) (e : Document.Directive)
    (h : d.reread? indent = some e) : e.bare = d.bare := by
  obtain ⟨args, -, rfl⟩ := Option.map_eq_some_iff.1 h
  rfl

theorem bare_reread_inputValue {indent : Nat} (v : InputValue) (w : Document.InputValue)
    (h : v.reread? indent = some w) : w.bare = v.bare := by
  simp only [InputValue.reread?, rereadType?, Option.bind_eq_some_iff,
    Option.map_eq_some_iff] at h
  obtain ⟨t, ht, d, -, ds, hds, rfl⟩ := h
  obtain ⟨-, ⟨⟩⟩ := Option.ite_none_right_eq_some.1 ht
  simp only [Document.InputValue.bare, InputValue.bare, map_of_mapM bare_reread_directive hds]

/-- Of a field that is read back, all but values and descriptions is as it was. -/
theorem bare_reread_field {indent : Nat} (f : Field) (g : Document.Field)
    (h : f.reread? indent = some g) : g.bare = f.bare := by
  simp only [Field.reread?, rereadType?, Option.bind_eq_some_iff, Option.map_eq_some_iff] at h
  obtain ⟨args, hargs, t, ht, ds, hds, rfl⟩ := h
  obtain ⟨-, ⟨⟩⟩ := Option.ite_none_right_eq_some.1 ht
  simp only [Document.Field.bare, Field.bare, map_of_mapM bare_reread_directive hds,
    map_of_mapM bare_reread_inputValue hargs]

theorem bare_reread_enumValue {indent : Nat} (v : EnumValue) (w : Document.EnumValue)
    (h : v.reread? indent = some w) : w.bare = v.bare := by
  rw [EnumValue.reread?] at h
  obtain ⟨-, h⟩ := Option.ite_none_left_eq_some.1 h
  obtain ⟨ds, hds, rfl⟩ := Option.map_eq_some_iff.1 h
  simp only [Document.EnumValue.bare, EnumValue.bare, map_of_mapM bare_reread_directive hds]

/-- A body that is read back makes the same entries. -/
theorem bare_reread_body {ds : List Directive} {c : Content} {b : Document.Body}
    (h : rereadBody? ds c = some b) : b.content.bare = c.bare := by
  cases c with
  | enum vs =>
    simp only [rereadBody?, Option.bind_eq_some_iff, Option.map_eq_some_iff] at h
    obtain ⟨ds', -, vs', hvs, rfl⟩ := h
    exact congrArg _ (map_of_rereadBlock? bare_reread_enumValue hvs)
  | inputObject fs =>
    simp only [rereadBody?, Option.bind_eq_some_iff, Option.map_eq_some_iff] at h
    obtain ⟨ds', -, fs', hfs, rfl⟩ := h
    exact congrArg _ (map_of_rereadBlock? bare_reread_inputValue hfs)
  | interface is fs | object is fs =>
    simp only [rereadBody?, rereadBody?.rereadFieldsBody?, Option.bind_eq_some_iff,
      Option.map_eq_some_iff] at h
    obtain ⟨ds', -, fs', hfs, rfl⟩ := h
    exact congr (congrArg _ (getD_declared? is)) (map_of_rereadBlock? bare_reread_field hfs)
  | scalar =>
    obtain ⟨ds', -, rfl⟩ := Option.map_eq_some_iff.1 h
    rfl
  | union ms =>
    obtain ⟨ds', -, rfl⟩ := Option.map_eq_some_iff.1 h
    exact congrArg _ (getD_declared? ms)

/-- **Reading back.**  What is read back of a definition says what the definition says, and
describes a type by what is read back of its description. -/
theorem readAs_of_reread? {d : Definition} {e : Document.Definition} (h : d.reread? = some e) :
    ReadAs (fun words words' => words' = rereadDescription 0 words) d e := by
  cases d with
  | schema s =>
    obtain ⟨-, h⟩ := Option.ite_none_left_eq_some.1 h
    obtain ⟨ds, -, rfl⟩ := Option.map_eq_some_iff.1 h
    exact .schema (.refl _)
  | type t =>
    obtain ⟨b, hb, rfl⟩ := Option.map_eq_some_iff.1 h
    exact .type rfl rfl rfl (bare_reread_body hb)
  | extension e =>
    obtain ⟨b, hb, h⟩ := Option.bind_eq_some_iff.1 h
    obtain ⟨-, ⟨⟩⟩ := Option.ite_none_right_eq_some.1 h
    exact .extension rfl rfl (bare_reread_body hb)
  | directive d =>
    obtain ⟨args, -, h⟩ := Option.bind_eq_some_iff.1 h
    obtain ⟨-, h⟩ := Option.ite_none_left_eq_some.1 h
    obtain ⟨places, -, rfl⟩ := Option.map_eq_some_iff.1 h
    exact .directive rfl

end Fragment

end SchemaCatalog

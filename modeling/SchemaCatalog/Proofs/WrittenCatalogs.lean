/-
# What a written catalog tells

A catalog in writing keeps to the limits of the reader and repeats no key, so both of its
texts are read back as the one value that it is written as.  That value tells the types of
the catalog, and its schema definition unless a type has taken its key: every part is written
so that it can be told from all others, and an entry never looks like the schema definition.
-/
import Mathlib.Data.List.Nodup
import SchemaCatalog.Catalog.Written
import SchemaCatalog.Proofs.Layouts

namespace SchemaCatalog

open Json (Fits)

/-! ## No key twice -/

/-- A list of strings fits wherever an array does. -/
theorem Json.fits_ofStrings (n : Nat) (ss : List String) : Fits (n + 1) (.ofStrings ss) := by
  refine .array fun v hv => ?_
  obtain ⟨s, -, rfl⟩ := List.mem_map.1 hv
  exact .string n s

/-- An object whose values fit, given by its members. -/
theorem Json.Fits.ofMembers {n : Nat} {ms : List (String × Json)}
    (keys : (ms.map Prod.fst).Nodup) (values : (ms.map Prod.snd).Forall (Fits n)) :
    Fits (n + 1) (.object ms) :=
  .object keys fun _ hm => List.forall_iff_forall_mem.1 values _ (List.mem_map_of_mem hm)

theorem ArgumentEntry.fits_toJson (a : ArgumentEntry) : Fits 1 a.toJson :=
  .ofMembers (by simp [TypeUse.members])
    ⟨.string _ _, .string _ _, .bool _ _, .bool _ _, .bool _ _, .bool _ _⟩

/-- A field repeats no key, and neither do its arguments. -/
theorem FieldEntry.fits_toJson (f : FieldEntry) : Fits 3 f.toJson := by
  have harguments : Fits 2 (.array (f.arguments.map ArgumentEntry.toJson)) := by
    refine .array fun v hv => ?_
    obtain ⟨a, -, rfl⟩ := List.mem_map.1 hv
    exact a.fits_toJson
  exact .ofMembers (by simp [TypeUse.members])
    ⟨.string _ _, .string _ _, .bool _ _, .bool _ _, .bool _ _, harguments, .bool _ _⟩

/-- A type repeats no key, and neither do its fields. -/
theorem TypeEntry.fits_toJson (r : TypeEntry) : Fits 5 r.toJson := by
  have hfields : Fits 4 (.array (r.fields.map FieldEntry.toJson)) := by
    refine .array fun v hv => ?_
    obtain ⟨f, -, rfl⟩ := List.mem_map.1 hv
    exact f.fits_toJson
  rw [TypeEntry.toJson]
  cases r.description with
  | none =>
    exact .ofMembers (by simp [optionalMember]) ⟨.string _ _, hfields, Json.fits_ofStrings 3 _,
      Json.fits_ofStrings 3 _, Json.fits_ofStrings 3 _⟩
  | some d =>
    exact .ofMembers (by simp [optionalMember]) ⟨.string _ _, .string _ d, hfields,
      Json.fits_ofStrings 3 _, Json.fits_ofStrings 3 _, Json.fits_ofStrings 3 _⟩

theorem Binding.fits_toJson (b : Binding) : Fits 1 b.toJson :=
  .ofMembers (by simp) ⟨.string _ _, .string _ _, .string _ _⟩

/-- A member that may be left out is the one of its key. -/
theorem mem_optionalMember_iff {key : String} {v : Option Json} {m : String × Json} :
    m ∈ optionalMember key v ↔ m.1 = key ∧ v = some m.2 := by
  obtain ⟨k, w⟩ := m
  cases v <;> simp [optionalMember, eq_comm]

/-- The operations that are bound stand under keys of their own. -/
theorem Bindings.fits_toJson (b : Bindings) : Fits 2 b.toJson := by
  obtain ⟨query, mutation, subscription⟩ := b
  have hbinding : ∀ (x : Option Binding) (v : Json), x.map Binding.toJson = some v → Fits 1 v := by
    intro x v hv
    obtain ⟨y, -, rfl⟩ := Option.map_eq_some_iff.1 hv
    exact y.fits_toJson
  refine .object ?_ fun m hm => ?_
  · cases query <;> cases mutation <;> cases subscription <;> simp [optionalMember]
  · simp only [List.mem_append, mem_optionalMember_iff] at hm
    rcases hm with (⟨-, hm⟩ | ⟨-, hm⟩) | ⟨-, hm⟩
    · exact hbinding _ _ hm
    · exact hbinding _ _ hm
    · exact hbinding _ _ hm

namespace Catalog

/-- The schema definition is written if there is one, unless a type has its key. -/
theorem schemaMember_eq (c : Catalog) : c.schemaMember =
    if schemaKey ∈ c.types.keys then []
    else optionalMember schemaKey (c.bindings.map Bindings.toJson) := by
  simp only [schemaMember, Table.contains_iff]

/-- The keys of a written catalog: that of the schema definition, if it is written, and the
names of the types. -/
theorem keys_toJson (c : Catalog) : c.toJson.keys =
    (if c.bindings.isSome ∧ schemaKey ∉ c.types.keys then [schemaKey] else []) ++
      c.types.keys := by
  have htypes : (c.types.rows.map fun e => (e.1, e.2.toJson)).map Prod.fst = c.types.keys := by
    simp [Table.keys]
  have hschema : c.schemaMember.map Prod.fst =
      if c.bindings.isSome ∧ schemaKey ∉ c.types.keys then [schemaKey] else [] := by
    rw [schemaMember_eq]
    by_cases hkey : schemaKey ∈ c.types.keys
    · simp [hkey]
    · cases c.bindings <;> simp [hkey, optionalMember]
  rw [toJson, Json.keys, List.map_append, htypes, hschema]

/-- A written catalog repeats no key, and is six levels deep at most. -/
theorem fits_toJson (c : Catalog) : Fits 6 c.toJson := by
  refine .object ?_ fun m hm => ?_
  · have hkeys := c.keys_toJson
    rw [toJson, Json.keys] at hkeys
    rw [hkeys]
    split
    · next h => exact List.nodup_cons.2 ⟨h.2, c.types.nodup_keys⟩
    · exact c.types.nodup_keys
  · rw [List.mem_append] at hm
    rcases hm with hm | hm
    · rw [schemaMember_eq] at hm
      split at hm
      · cases hm
      · obtain ⟨-, hm⟩ := mem_optionalMember_iff.1 hm
        obtain ⟨b, -, hb⟩ := Option.map_eq_some_iff.1 hm
        rw [← hb]
        exact b.fits_toJson.mono (by decide)
    · obtain ⟨e, -, rfl⟩ := List.mem_map.1 hm
      exact e.2.fits_toJson

end Catalog

/-! ## Telling values apart -/

/-- All shapes of types. -/
def Shape.all : List Shape := [.enum, .inputObject, .interface, .object, .scalar, .union]

theorem Shape.mem_all (s : Shape) : s ∈ all := by
  cases s <;> decide

/-- All kinds of nodes. -/
def EntryKind.all : List EntryKind :=
  .operation :: (Shape.all.map .definition ++ Shape.all.map .extension)

theorem EntryKind.mem_all (k : EntryKind) : k ∈ all := by
  cases k with
  | operation => exact List.mem_cons_self
  | definition s =>
    exact List.mem_cons_of_mem _ (List.mem_append_left _ (List.mem_map_of_mem s.mem_all))
  | extension s =>
    exact List.mem_cons_of_mem _ (List.mem_append_right _ (List.mem_map_of_mem s.mem_all))

/-- No two kinds are called the same. -/
theorem EntryKind.text_injective : Function.Injective EntryKind.text := fun a b h =>
  List.inj_on_of_nodup_map (show (all.map text).Nodup by decide) a.mem_all b.mem_all h

/-- No two operations are called the same. -/
theorem Operation.text_injective : Function.Injective Operation.text := by
  intro a b h
  have hb := Operation.ofText?_text b
  rw [← h, Operation.ofText?_text] at hb
  exact Option.some.inj hb

/-- Lists of texts are told apart by what is written. -/
theorem Json.ofStrings_injective : Function.Injective Json.ofStrings := by
  intro ss ts h
  have hstring : Function.Injective Json.string := fun _ _ h => Json.string.inj h
  exact List.map_injective_iff.2 hstring (Json.array.inj h)

theorem ArgumentEntry.toJson_injective : Function.Injective ArgumentEntry.toJson := by
  rintro ⟨name, ⟨typeName, isNullable, isList, hasRequired⟩, isDeprecated⟩
    ⟨name', ⟨typeName', isNullable', isList', hasRequired'⟩, isDeprecated'⟩ h
  simpa [toJson, TypeUse.members, and_assoc] using h

theorem FieldEntry.toJson_injective : Function.Injective FieldEntry.toJson := by
  rintro ⟨name, ⟨typeName, isNullable, isList, hasRequired⟩, arguments, isDeprecated⟩
    ⟨name', ⟨typeName', isNullable', isList', hasRequired'⟩, arguments', isDeprecated'⟩ h
  have harguments := (List.map_injective_iff.2 ArgumentEntry.toJson_injective).eq_iff
    (a := arguments) (b := arguments')
  simpa [toJson, TypeUse.members, and_assoc, harguments] using h

/-- Entries of types are told apart by what is written: each list stands under a key of its own.
-/
theorem TypeEntry.toJson_injective : Function.Injective TypeEntry.toJson := by
  rintro ⟨kind, description, fields, values, members, interfaces⟩
    ⟨kind', description', fields', values', members', interfaces'⟩ h
  have hfields := (List.map_injective_iff.2 FieldEntry.toJson_injective).eq_iff
    (a := fields) (b := fields')
  simp only [toJson] at h
  cases description with
  | none =>
    cases description' with
    | none =>
      simpa [optionalMember, EntryKind.text_injective.eq_iff, hfields,
        Json.ofStrings_injective.eq_iff] using h
    | some d => simp [optionalMember] at h
  | some d =>
    cases description' with
    | none => simp [optionalMember] at h
    | some d' =>
      simpa [optionalMember, EntryKind.text_injective.eq_iff, hfields,
        Json.ofStrings_injective.eq_iff] using h

theorem Binding.toJson_injective : Function.Injective Binding.toJson := by
  rintro ⟨kind, operation, typeName⟩ ⟨kind', operation', typeName'⟩ h
  simpa [toJson, EntryKind.text_injective.eq_iff, Operation.text_injective.eq_iff] using h

/-- The value of a member of the bindings in writing. -/
theorem Bindings.member?_toJson (b : Bindings) (o : Operation) :
    b.toJson.member? o.text = (b.get o).map Binding.toJson := by
  obtain ⟨query, mutation, subscription⟩ := b
  cases o <;> cases query <;> cases mutation <;> cases subscription <;> rfl

/-- So are the bindings of the operations. -/
theorem Bindings.toJson_injective : Function.Injective Bindings.toJson := by
  intro b b' h
  have hget : ∀ o, b.get o = b'.get o := by
    intro o
    have hmember := b'.member?_toJson o
    rw [← h, b.member?_toJson] at hmember
    exact Option.map_injective Binding.toJson_injective hmember
  obtain ⟨query, mutation, subscription⟩ := b
  obtain ⟨query', mutation', subscription'⟩ := b'
  exact Bindings.mk.injEq .. ▸ ⟨hget .query, hget .mutation, hget .subscription⟩

/-- The entry of a type is never written as a schema definition is: it tells its kind. -/
theorem TypeEntry.toJson_ne_bindings (r : TypeEntry) (b : Bindings) : r.toJson ≠ b.toJson := by
  intro h
  have hkind : r.toJson.member? "kind" = some (.string r.kind.text) := rfl
  obtain ⟨query, mutation, subscription⟩ := b
  rw [h] at hkind
  cases query <;> cases mutation <;> cases subscription <;> cases hkind

namespace Catalog

/-- The types of a catalog in writing. -/
def typeMembers (c : Catalog) : List (String × Json) := c.types.rows.map fun e => (e.1, e.2.toJson)

variable {c d : Catalog}

theorem types_eq_of_typeMembers (h : c.typeMembers = d.typeMembers) : c.types = d.types := by
  refine Table.ext_rows (List.map_injective_iff.2 ?_ h)
  rintro ⟨name, r⟩ ⟨name', r'⟩ he
  obtain ⟨hname, hr⟩ := Prod.mk.inj he
  exact Prod.ext hname (TypeEntry.toJson_injective hr)

/-- The members of a catalog are either its types alone or its schema definition and them. -/
theorem members_cases (c : Catalog) :
    (c.toJson = .object c.typeMembers ∧ (schemaKey ∉ c.types.keys → c.bindings = none)) ∨
      ∃ b, c.toJson = .object ((schemaKey, b.toJson) :: c.typeMembers) ∧ c.bindings = some b := by
  rw [toJson, schemaMember_eq]
  by_cases hkey : schemaKey ∈ c.types.keys
  · exact .inl ⟨by rw [if_pos hkey]; rfl, fun h => absurd hkey h⟩
  · rw [if_neg hkey]
    cases hb : c.bindings with
    | none => exact .inl ⟨rfl, fun _ => rfl⟩
    | some b => exact .inr ⟨b, rfl, rfl⟩

/-- The types alone do not look like the types of another catalog behind its schema
definition. -/
theorem typeMembers_ne_cons (b : Bindings) (ms : List (String × Json)) :
    c.typeMembers ≠ (schemaKey, b.toJson) :: ms := by
  intro h
  have hmem : (schemaKey, b.toJson) ∈ c.typeMembers := h ▸ List.mem_cons_self
  obtain ⟨e, -, he⟩ := List.mem_map.1 hmem
  exact e.2.toJson_ne_bindings b (Prod.mk.inj he).2

/-- Catalogs that are written as one value have the same types, and the same schema definition
unless a type has its key. -/
theorem eq_of_toJson_eq (h : c.toJson = d.toJson) :
    c.types = d.types ∧ (schemaKey ∉ c.types.keys → c.bindings = d.bindings) := by
  rcases c.members_cases with ⟨hc, hcb⟩ | ⟨b, hc, hcb⟩ <;>
    rcases d.members_cases with ⟨hd, hdb⟩ | ⟨b', hd, hdb⟩ <;> rw [hc, hd] at h
  · have htypes := types_eq_of_typeMembers (Json.object.inj h)
    exact ⟨htypes, fun hkey => (hcb hkey).trans (hdb (htypes ▸ hkey)).symm⟩
  · exact absurd (Json.object.inj h) (typeMembers_ne_cons b' _)
  · exact absurd (Json.object.inj h).symm (typeMembers_ne_cons b _)
  · obtain ⟨hmember, htypes⟩ := List.cons.inj (Json.object.inj h)
    refine ⟨types_eq_of_typeMembers htypes, fun _ => ?_⟩
    rw [hcb, hdb, Bindings.toJson_injective (Prod.mk.inj hmember).2]

/-! ## The texts of a catalog -/

/-- **Written catalogs.**  Both texts of a catalog are read back as the value that the catalog is
written as.  No object of that value repeats a key; its own keys are the names of the types,
behind that of the schema definition if there is one and no type has its key.  Two catalogs
that share a text have the same types with the same entries in the same order, and, unless a
type has the key of the schema definition, the same schema definition. -/
theorem written_exact (c : Catalog) :
    (Json.ofText c.toJson.compact = .ok c.toJson ∧ Json.ofText c.toJson.pretty = .ok c.toJson) ∧
    c.toJson.HasDistinctKeys ∧
    c.toJson.keys =
      (if c.bindings.isSome ∧ "schemaDefinition" ∉ c.types.keys then ["schemaDefinition"] else [])
        ++ c.types.keys ∧
    ∀ d : Catalog, c.toJson.compact = d.toJson.compact ∨ c.toJson.pretty = d.toJson.pretty →
      c.types = d.types ∧ ("schemaDefinition" ∉ c.types.keys → c.bindings = d.bindings) := by
  have hcompact : ∀ e : Catalog, Json.ofText e.toJson.compact = .ok e.toJson :=
    fun e => Json.ofText_compact e.fits_toJson (by decide)
  have hpretty : ∀ e : Catalog, Json.ofText e.toJson.pretty = .ok e.toJson :=
    fun e => Json.ofText_pretty e.fits_toJson (by decide)
  refine ⟨⟨hcompact c, hpretty c⟩, c.fits_toJson.hasDistinctKeys, c.keys_toJson, fun d h => ?_⟩
  have hjson : c.toJson = d.toJson := by
    rcases h with h | h
    · have hd := hcompact d
      rw [← h, hcompact c] at hd
      exact Except.ok.inj hd
    · have hd := hpretty d
      rw [← h, hpretty c] at hd
      exact Except.ok.inj hd
  exact eq_of_toJson_eq hjson

/-- Two catalogs that differ in their directives, which are not written. -/
theorem written_exact_of_directives :
    let argument : ArgumentEntry := ⟨"x", ⟨"Int", true, false, false⟩, false⟩
    let field : FieldEntry := ⟨"f", ⟨"ID", false, true, true⟩, [argument], true⟩
    let entry : TypeEntry :=
      ⟨.definition .object, some "a \"b\" \\ \t\n\x01 é 😀", [field], [], [], ["I"]⟩
    let bindings : Bindings := ⟨some ⟨.operation, .query, "T"⟩, none, none⟩
    let c : Catalog := ⟨Table.empty.insert "T" entry, ["here"], some bindings⟩
    let d : Catalog := ⟨Table.empty.insert "T" entry, [], some bindings⟩
    c.toJson.compact = d.toJson.compact ∧ "schemaDefinition" ∉ c.types.keys ∧
      c.types = d.types ∧ c.bindings = d.bindings := by
  intro argument field entry bindings c d
  have htext : c.toJson.compact = d.toJson.compact := rfl
  have hkey : "schemaDefinition" ∉ c.types.keys := by decide
  obtain ⟨-, -, -, htell⟩ := written_exact c
  obtain ⟨htypes, hbindings⟩ := htell d (.inl htext)
  exact ⟨htext, hkey, htypes, hbindings hkey⟩

/-- A type that takes the key of the schema definition hides it. -/
example :
    let entry : TypeEntry := ⟨.definition .scalar, none, [], [], [], []⟩
    let bindings : Bindings := ⟨some ⟨.operation, .query, "schemaDefinition"⟩, none, none⟩
    let c : Catalog := ⟨Table.empty.insert "schemaDefinition" entry, [], some bindings⟩
    let d : Catalog := ⟨Table.empty.insert "schemaDefinition" entry, [], none⟩
    c.toJson.compact = d.toJson.compact ∧ c.bindings ≠ d.bindings :=
  ⟨rfl, by decide⟩

end Catalog

end SchemaCatalog

/-
# The names in a catalog

The names of a catalog are those of the definitions that it is made from, and these are names
of one text.  Only the entries of a schema may lack a name, and a schema with such an entry has
no catalog: an operation cannot start from a type without a name.
-/
import SchemaCatalog.Proofs.EntryContents
import SchemaCatalog.Proofs.HeardNames
import SchemaCatalog.Proofs.ResolvedRoots

namespace SchemaCatalog

open Document (Definition Outline Declaration TypeNode Content InputValue Field RootOperation
  nodesOf typeNames typeNodes schemaNodes)

/-! ## All names of a catalog -/

/-- The name of an argument and that of its type. -/
def ArgumentEntry.names (a : ArgumentEntry) : List String := [a.name, a.type.typeName]

/-- The names in the entry of a field. -/
def FieldEntry.names (f : FieldEntry) : List String :=
  f.name :: f.type.typeName :: f.arguments.flatMap ArgumentEntry.names

/-- The names in the entry of a type. -/
def TypeEntry.names (r : TypeEntry) : List String :=
  r.fields.flatMap FieldEntry.names ++ r.values ++ r.unionMembers ++ r.interfaces

/-- The names of the types that operations start from. -/
def Bindings.typeNames (b : Bindings) : List String :=
  [Operation.query, .mutation, .subscription].filterMap fun o => (b.get o).map Binding.typeName

/-- The names in a catalog: those of the types and all that stand in their entries, those of
the directives, and those of the types that operations start from. -/
def Catalog.names (c : Catalog) : List String :=
  c.types.rows.flatMap (fun row => row.1 :: row.2.names) ++ c.directiveNames ++
    c.bindings.toList.flatMap Bindings.typeNames

/-! ## Names of entries -/

/-- Some definition gives a name. -/
def Tells (ds : List Definition) (name : String) : Prop :=
  ∃ d ∈ ds, ∃ n ∈ d.names, n.text = name

theorem ArgumentEntry.names_ofInputValue (v : InputValue) :
    (ArgumentEntry.ofInputValue v).names = v.names.map Name.text := by
  have htype := (TypeUse.describes_ofTypeRef v.type).typeName
  simp [names, ofInputValue, InputValue.names, htype]

theorem FieldEntry.names_ofInputValue (v : InputValue) :
    (FieldEntry.ofInputValue v).names = v.names.map Name.text := by
  have htype := (TypeUse.describes_ofTypeRef v.type).typeName
  simp [names, ofInputValue, InputValue.names, htype]

theorem FieldEntry.names_ofField (f : Field) :
    (FieldEntry.ofField f).names = f.names.map Name.text := by
  have htype := (TypeUse.describes_ofTypeRef f.type).typeName
  simp [names, ofField, Field.names, htype, List.flatMap_map, List.map_flatMap,
    ArgumentEntry.names_ofInputValue]

/-- The names in the fields of a node are names of its content. -/
theorem names_of_fieldsOf? {c : Content} {fs : List FieldEntry} (h : fieldsOf? c = some fs) :
    fs.flatMap FieldEntry.names ⊆ c.names.map Name.text := by
  cases c with
  | enum | scalar | union => cases h
  | inputObject vs =>
    cases h
    rw [Content.names, List.flatMap_map, List.map_flatMap]
    simp only [FieldEntry.names_ofInputValue]
    exact List.Subset.refl _
  | interface is gs | object is gs =>
    cases h
    rw [Content.names, List.flatMap_map, List.map_append, List.map_flatMap]
    simp only [FieldEntry.names_ofField]
    exact List.subset_append_right _ _

theorem names_of_valuesOf? {c : Content} {vs : List String} (h : valuesOf? c = some vs) :
    vs ⊆ c.names.map Name.text := by
  cases c with
  | enum ws =>
    cases h
    rw [Content.names, List.map_map]
    exact List.Subset.refl _
  | inputObject | interface | object | scalar | union => cases h

theorem names_of_membersOf? {c : Content} {ms : List String} (h : membersOf? c = some ms) :
    ms ⊆ c.names.map Name.text := by
  cases c with
  | union ns =>
    cases h
    exact List.Subset.refl _
  | enum | inputObject | interface | object | scalar => cases h

theorem names_of_interfaces (c : Content) :
    c.interfaces.map Name.text ⊆ c.names.map Name.text := by
  cases c with
  | interface is fs | object is fs =>
    exact List.map_subset _ (List.subset_append_left _ _)
  | enum | inputObject | scalar | union => exact List.nil_subset _

/-- What is gathered comes from some node. -/
theorem exists_of_mem_gatherFor {α : Type} {part : Content → Option (List α)} {d : Declaration}
    {x : α} (h : x ∈ gatherFor part d) :
    ∃ n ∈ d.nodes, ∃ xs, part n.content = some xs ∧ x ∈ xs := by
  rw [gatherFor] at h
  split at h
  · obtain ⟨xs, hxs, hx⟩ := List.mem_flatten.1 h
    obtain ⟨n, hn, hpart⟩ := List.mem_filterMap.1 hxs
    exact ⟨n, hn, xs, hpart, hx⟩
  · cases h

/-- The names in the entry of a type stand in the nodes of the type. -/
theorem names_ofDeclaration {d : Declaration} {name : String}
    (h : name ∈ (TypeEntry.ofDeclaration d).names) :
    ∃ n ∈ d.nodes, name ∈ n.content.names.map Name.text := by
  simp only [TypeEntry.names, TypeEntry.ofDeclaration, List.mem_append] at h
  rcases h with ((h | h) | h) | h
  · obtain ⟨f, hf, hname⟩ := List.mem_flatMap.1 h
    obtain ⟨n, hn, fs, hfs, hmem⟩ := exists_of_mem_gatherFor hf
    exact ⟨n, hn, names_of_fieldsOf? hfs (List.mem_flatMap.2 ⟨f, hmem, hname⟩)⟩
  · obtain ⟨n, hn, vs, hvs, hname⟩ := exists_of_mem_gatherFor h
    exact ⟨n, hn, names_of_valuesOf? hvs hname⟩
  · obtain ⟨n, hn, ms, hms, hname⟩ := exists_of_mem_gatherFor h
    exact ⟨n, hn, names_of_membersOf? hms hname⟩
  · obtain ⟨n, hn, hname⟩ := List.mem_flatMap.1 h
    exact ⟨n, hn, names_of_interfaces n.content hname⟩

/-! ## Names of a whole catalog -/

section

variable {ds : List Definition} {o : Outline} {c : Catalog}

theorem tells_of_node {n : TypeNode} (hn : n ∈ typeNodes ds) {name : String}
    (h : name = n.name.text ∨ name ∈ n.content.names.map Name.text) : Tells ds name := by
  obtain ⟨d, hd, hdn⟩ := List.mem_filterMap.1 hn
  cases d with
  | type t =>
    cases hdn
    rcases h with rfl | h
    · exact ⟨_, hd, n.name, List.mem_cons_self, rfl⟩
    · obtain ⟨m, hm, rfl⟩ := List.mem_map.1 h
      exact ⟨_, hd, m, List.mem_cons_of_mem _ hm, rfl⟩
  | schema | directive | aside => cases hdn

/-- The types that definitions speak of are named by them. -/
theorem tells_of_mem_typeNames {name : String} (h : name ∈ typeNames ds) : Tells ds name := by
  obtain ⟨n, hn, rfl⟩ := List.mem_map.1 h
  exact tells_of_node hn (Or.inl rfl)

/-- The types of an outline are those that its definitions speak of. -/
theorem mem_keys_typesOf_iff (h : o.Holds ds) (name : String) :
    name ∈ (Catalog.typesOf o).keys ↔ name ∈ typeNames ds := by
  rw [mem_keys_typesOf h, Document.typeNames_eq_mentions]

/-- What stands in an entry, before it is linked, is named by definitions. -/
theorem tells_of_entry (h : o.Holds ds) {key name : String} {r : TypeEntry}
    (hr : (entriesOf o).get? key = some r) (hname : name ∈ r.names) : Tells ds name := by
  obtain ⟨d, -, hnodes, rfl⟩ := get?_entriesOf h hr
  obtain ⟨n, hn, hname⟩ := names_ofDeclaration hname
  rw [hnodes] at hn
  exact tells_of_node (List.mem_of_mem_filter hn) (Or.inr hname)

/-- Linking adds to an entry only names of types. -/
theorem names_linkedEntry {types : Table TypeEntry} {key name : String} {r : TypeEntry}
    (h : name ∈ (linkedEntry types key r).names) : name ∈ r.names ∨ name ∈ types.keys := by
  have himplementors : name ∈ implementorsOf types key → name ∈ types.keys := by
    intro hname
    obtain ⟨e, he, -⟩ := mem_implementorsOf.1 hname
    exact Table.contains_iff.1 (by rw [Table.contains, he]; rfl)
  simp only [TypeEntry.names, linkedEntry, List.mem_append] at h ⊢
  rcases h with h | h
  · exact Or.inl (Or.inl h)
  · split at h
    · rcases List.mem_append.1 h with h | h
      · exact Or.inl (Or.inr h)
      · exact Or.inr (himplementors h)
    · exact Or.inl (Or.inr h)

/-- Each operation starts from a type of the catalog. -/
theorem mem_keys_of_binding {b : Bindings} (h : Catalog.ofDefinitions ds = .ok c)
    (hb : c.bindings = some b) {name : String} (hname : name ∈ b.typeNames) :
    name ∈ c.types.keys := by
  obtain ⟨o, ho, -, -⟩ := Catalog.ofDefinitions_eq_ok h
  cases hs : o.schema with
  | none =>
    rw [Catalog.ofDefinitions_of_no_schema ho hs] at h
    cases h
    cases hb
  | some s =>
    rw [Catalog.ofDefinitions_of_schema ho hs] at h
    cases hroots : Bindings.ofRoots (Catalog.typesOf o) s.operations with
    | error e =>
      rw [hroots] at h
      cases h
    | ok b' =>
      rw [hroots] at h
      cases h
      cases hb
      have hof := areOf_of_ofRoots hroots
      obtain ⟨hclear, -⟩ := (Bindings.heeds_bindingObjection (Catalog.typesOf o)).of_run
        Bindings.holds_empty hroots
      obtain ⟨p, -, hp⟩ := List.mem_filterMap.1 hname
      obtain ⟨x, hx, rfl⟩ := Option.map_eq_some_iff.1 hp
      -- behind a schema definition only the operations that it lists are bound
      by_cases hbound : p ∈ s.operations.map RootOperation.operation
      · obtain ⟨e, he, rfl⟩ := List.mem_map.1 hbound
        rw [hof.bound e he] at hx
        cases hx
        exact Table.contains_iff.1 ((clear_roots_iff.1 hclear).2 e he)
      · rw [hof.unbound p hbound] at hx
        cases hx

/-- **Names of a catalog.**  Each of them is given by some definition. -/
theorem tells_of_ofDefinitions (h : Catalog.ofDefinitions ds = .ok c) {name : String}
    (hname : name ∈ c.names) : Tells ds name := by
  obtain ⟨o, ho, htypes, hdirectives⟩ := Catalog.ofDefinitions_eq_ok h
  have hholds := (Outline.holds_of_ofDefinitions ho).2
  have hkeys : ∀ key ∈ c.types.keys, Tells ds key := by
    intro key hkey
    rw [htypes, mem_keys_typesOf_iff hholds] at hkey
    exact tells_of_mem_typeNames hkey
  rcases List.mem_append.1 hname with hname | hname
  · rcases List.mem_append.1 hname with hname | hname
    · obtain ⟨⟨key, r⟩, hrow, hname⟩ := List.mem_flatMap.1 hname
      have hr := Table.mem_rows_iff.1 hrow
      rcases List.mem_cons.1 hname with rfl | hname
      · exact hkeys _ (List.mem_map_of_mem hrow)
      · rw [htypes, Catalog.typesOf, get?_linkImplementors, Option.map_eq_some_iff] at hr
        obtain ⟨r, hr, rfl⟩ := hr
        rcases names_linkedEntry hname with hname | hname
        · exact tells_of_entry hholds hr hname
        · rw [← keys_typesOf, ← htypes] at hname
          exact hkeys name hname
    · rw [hdirectives, Outline.directiveNames, hholds.directives] at hname
      obtain ⟨n, hn, rfl⟩ := List.mem_map.1 hname
      obtain ⟨d, hd, hdn⟩ := List.mem_filterMap.1 hn
      cases d with
      | directive m =>
        cases hdn
        exact ⟨_, hd, n.name, List.mem_cons_self, rfl⟩
      | schema | type | aside => cases hdn
  · obtain ⟨b, hb, hname⟩ := List.mem_flatMap.1 hname
    exact hkeys name (mem_keys_of_binding h (Option.mem_toList.1 hb) hname)

/-- Without a name of a type no schema is catalogued that has an entry. -/
theorem refused_of_nameless_root {s : Document.SchemaNode} (hs : s ∈ schemaNodes ds)
    {e : RootOperation} (he : e ∈ s.operations) (hnone : e.typeName = none) :
    (∃ cause, Catalog.ofDefinitions ds = .error (.repetition cause)) ∨
      ∃ cause, Catalog.ofDefinitions ds = .error (.binding cause) := by
  cases ho : Outline.ofDefinitions ds with
  | error r => exact Or.inl ⟨r, (Catalog.ofDefinitions_eq_repetition_iff ds r).2 ho⟩
  | ok o =>
    have hholds := (Outline.holds_of_ofDefinitions ho).2
    rw [← hholds.schema, Option.mem_toList] at hs
    have hnames : ∀ n, (Catalog.typesOf o).contains n = true ↔
        n ∈ (Catalog.typesOf o).keys := fun n => Table.contains_iff
    have hmissing : typeNameOf e ∉ (Catalog.typesOf o).keys := by
      rw [mem_keys_typesOf_iff hholds]
      intro hmem
      obtain ⟨n, -, hn⟩ := List.mem_map.1 hmem
      -- no type has an empty name
      rw [typeNameOf, hnone] at hn
      exact n.name.text_ne_empty hn
    obtain ⟨before, after, hsplit⟩ := List.append_of_mem he
    obtain ⟨cause, hcause⟩ := (exists_ofRoots_error_iff hnames).2
      ⟨before, e, after, hsplit, Or.inr hmissing⟩
    refine Or.inr ⟨cause, ?_⟩
    rw [Catalog.ofDefinitions_of_schema ho hs, hcause]

end

/-- The name of a type that an entry gives is empty exactly if it gives none. -/
theorem typeNameOf_eq_empty_iff (e : RootOperation) : typeNameOf e = "" ↔ e.typeName = none := by
  rw [typeNameOf]
  cases e.typeName with
  | none => exact ⟨fun _ => rfl, fun _ => rfl⟩
  | some n =>
    constructor
    · intro h
      exact absurd h n.text_ne_empty
    · intro h
      cases h

/-- **No name is made up.**  Whatever a source is, every name in its catalog is a name, and it
stands as a lexeme of its own in the text that the source comes down to.  Where a text that can
be read gives no name, this is the type of an entry of a schema; its name is then taken to be
empty, and the source has no catalog. -/
theorem Source.names_of_catalog (s : Source) :
    (∀ c, s.catalog = .ok c → ∃ text, s.toText = .ok text ∧
      ∀ name ∈ c.names, isName name.toList = true ∧
        ∃ n : Name, n.text = name ∧ ⟨name.toList, n.lexeme⟩ ∈ Document.scan text.toList) ∧
    ∀ text ds, s.toText = .ok text → Catalog.definitionsOf text = .ok ds →
      ∀ schema ∈ schemaNodes ds, ∀ e ∈ schema.operations,
        (typeNameOf e = "" ↔ e.typeName = none) ∧
        (e.typeName = none → (∃ cause, s.catalog = .error (.repetition cause)) ∨
          ∃ cause, s.catalog = .error (.binding cause)) := by
  refine ⟨?_, ?_⟩
  · intro c h
    obtain ⟨text, ds, htext, hread, hc⟩ := Source.catalog_eq_ok h
    refine ⟨text, htext, ?_⟩
    intro name hname
    obtain ⟨d, hd, n, hn, rfl⟩ := tells_of_ofDefinitions hc hname
    have hlexeme := Document.names_of_definitionsOf hread hd hn
    exact ⟨n.isName_text, n, rfl, Document.mem_scan_of_name hlexeme⟩
  · intro text ds htext hread schema hschema e he
    refine ⟨typeNameOf_eq_empty_iff e, ?_⟩
    intro hnone
    simp only [Source.catalog_eq htext hread, Attempt.ofExcept_eq_error_iff]
    exact refused_of_nameless_root hschema he hnone

/-- A union that is its own member and the type that queries start from, and a schema without
the name of that type, which can be read and has no catalog. -/
theorem Source.names_of_catalog_of_nameless_root :
    (∃ c, (Source.text "union A=A schema{query:A}").catalog = .ok c ∧
      c.names = ["A", "A", "A"] ∧ ∀ name ∈ c.names, isName name.toList = true) ∧
    Catalog.definitionsOf "schema { query: }" = .ok [.schema ⟨none, [], [⟨.query, none⟩]⟩] ∧
    (Source.text "schema { query: }").catalog = .error (.binding (.unresolved .query "")) ∧
    ((∃ cause, (Source.text "schema { query: }").catalog = .error (.repetition cause)) ∨
      ∃ cause, (Source.text "schema { query: }").catalog = .error (.binding cause)) := by
  have hread : Catalog.definitionsOf "schema { query: }" =
      .ok [.schema ⟨none, [], [⟨.query, none⟩]⟩] := by rfl
  refine ⟨?_, hread, by rfl, ?_⟩
  · have hc : ∃ c, (Source.text "union A=A schema{query:A}").catalog = .ok c ∧
        c.names = ["A", "A", "A"] := ⟨_, rfl, rfl⟩
    obtain ⟨c, hc, hnames⟩ := hc
    obtain ⟨text, -, hall⟩ := (Source.names_of_catalog _).1 c hc
    exact ⟨c, hc, hnames, fun name hname => (hall name hname).1⟩
  · obtain ⟨-, hnone⟩ := (Source.names_of_catalog (.text "schema { query: }")).2 _ _ rfl hread
      _ List.mem_cons_self _ List.mem_cons_self
    exact hnone rfl

end SchemaCatalog

/-
# Catalogs without descriptions

Documents whose definitions say what the same fragment says make the same catalog, apart from
the descriptions of types.  Every description comes from the definition of the fragment that
speaks of the type first.
-/
import SchemaCatalog.Proofs.BareDefinitions
import SchemaCatalog.Proofs.DefinitionOrder

namespace SchemaCatalog

/-! ## Tables -/

namespace Table

variable {α β : Type} {s t : Table α}

/-- A table is its keys, in order, with what is found under them. -/
theorem ext_get? (hkeys : s.keys = t.keys) (h : ∀ key, s.get? key = t.get? key) : s = t := by
  have hkey : ∀ u : Table α, ∀ i, u.keys[i]? = u.rows[i]?.map Prod.fst := fun u i => by
    rw [keys, List.getElem?_map]
  refine ext_rows (List.ext_getElem? fun i => ?_)
  have hi : s.rows[i]?.map Prod.fst = t.rows[i]?.map Prod.fst := by
    rw [← hkey, ← hkey, hkeys]
  cases hs : s.rows[i]? with
  | none =>
    rw [hs, Option.map_none] at hi
    exact (Option.map_eq_none_iff.1 hi.symm).symm
  | some row =>
    obtain ⟨key, value⟩ := row
    rw [hs, Option.map_some] at hi
    obtain ⟨⟨key', value'⟩, ht, rfl⟩ := Option.map_eq_some_iff.1 hi.symm
    have hvalue := mem_rows_iff.1 (List.mem_of_getElem? hs)
    have hvalue' := mem_rows_iff.1 (List.mem_of_getElem? ht)
    rw [h, hvalue'] at hvalue
    rw [ht, Option.some.inj hvalue]

end Table

/-! ## Bindings -/

namespace Bindings

open Document (RootOperation)

/-- Bindings are what they bind each operation to. -/
theorem ext_get {a b : Bindings} (h : ∀ o, a.get o = b.get o) : a = b := by
  obtain ⟨query, mutation, subscription⟩ := a
  obtain ⟨query', mutation', subscription'⟩ := b
  obtain rfl : query = query' := h .query
  obtain rfl : mutation = mutation' := h .mutation
  obtain rfl : subscription = subscription' := h .subscription
  rfl

/-- The order of entries for different operations does not matter. -/
theorem ofRoots_perm {types : Table TypeEntry} {es es' : List RootOperation} {b : Bindings}
    (h : es.Perm es') (hnodup : (es.map RootOperation.operation).Nodup)
    (hb : ofRoots types es = .ok b) : ofRoots types es' = .ok b := by
  have hnodup' : (es'.map RootOperation.operation).Nodup := (h.map _).nodup hnodup
  have hfound := (exists_ofRoots_iff hnodup).1 ⟨b, hb⟩
  obtain ⟨b', hb'⟩ := (exists_ofRoots_iff hnodup').2 fun e he => hfound e (h.mem_iff.2 he)
  have hholds := ((heeds_bindingObjection types).of_run holds_empty hb).2
  have hholds' := ((heeds_bindingObjection types).of_run holds_empty hb').2
  rw [hb']
  refine congrArg _ (ext_get fun o => ?_)
  rw [hholds o, hholds' o]
  refine congrArg _ (Option.ext fun e => ?_)
  rw [List.nil_append, List.nil_append, find?_operation_iff hnodup', find?_operation_iff hnodup,
    h.mem_iff]

end Bindings

/-! ## Nodes and declarations -/

namespace Document

/-- The role of a node, without words. -/
def Role.bare : Role → Role
  | .definition _ => .definition none
  | .extension => .extension

/-- A node without descriptions, values and directives. -/
def TypeNode.bare (n : TypeNode) : TypeNode := ⟨n.role.bare, n.name, [], n.content.bare⟩

@[simp] theorem TypeNode.kind_bare (n : TypeNode) : n.bare.kind = n.kind := by
  obtain ⟨_ | _, name, ds, c⟩ := n <;> simp [TypeNode.bare, TypeNode.kind, Role.bare]

@[simp] theorem TypeNode.mention_bare (n : TypeNode) : n.bare.mention = n.mention := by
  rw [TypeNode.mention, kind_bare]
  simp [TypeNode.mention, TypeNode.bare, Content.members]

/-- A declaration of bare nodes. -/
def Declaration.bare (d : Declaration) : Declaration :=
  ⟨d.primary.bare, d.additions.map TypeNode.bare⟩

variable {ds es : List Definition}

/-- Nodes that are alike but for their words mention the same. -/
theorem mentions_eq_of_bare
    (h : (typeNodes ds).map TypeNode.bare = (typeNodes es).map TypeNode.bare) :
    mentions ds = mentions es := by
  have hbare : ∀ ds, mentions ds = ((typeNodes ds).map TypeNode.bare).map TypeNode.mention := by
    intro ds
    simp [mentions, Function.comp_def]
  rw [hbare, hbare, h]

/-- The names of types are kept. -/
theorem typeNames_eq_of_bare
    (h : (typeNodes ds).map TypeNode.bare = (typeNodes es).map TypeNode.bare) :
    typeNames ds = typeNames es := by
  rw [typeNames_eq_mentions, typeNames_eq_mentions, mentions_eq_of_bare h]

/-- The nodes of a name are those among the bare nodes. -/
theorem nodesOf_bare (name : String) (ds : List Definition) :
    (nodesOf name ds).map TypeNode.bare =
      ((typeNodes ds).map TypeNode.bare).filter (·.name.text = name) := by
  rw [nodesOf, List.filter_map]
  rfl

/-- Outlines of such nodes declare the same types alike. -/
theorem Outline.Holds.bare_eq {o p : Outline} (ho : o.Holds ds) (hp : p.Holds es)
    (h : (typeNodes ds).map TypeNode.bare = (typeNodes es).map TypeNode.bare) (name : String) :
    (o.types.get? name).map Declaration.bare = (p.types.get? name).map Declaration.bare := by
  have hsome : (o.types.get? name).isSome = true ↔ (p.types.get? name).isSome = true := by
    rw [ho.get?_isSome_iff, hp.get?_isSome_iff, typeNames_eq_of_bare h]
  cases hd : o.types.get? name with
  | none =>
    cases he : p.types.get? name with
    | none => rfl
    | some e => simp [hd, he] at hsome
  | some d =>
    cases he : p.types.get? name with
    | none => simp [hd, he] at hsome
    | some e =>
      have hnodes : d.nodes.map TypeNode.bare = e.nodes.map TypeNode.bare := by
        rw [ho.nodes name d hd, hp.nodes name e he, nodesOf_bare, nodesOf_bare, h]
      obtain ⟨hprimary, hadditions⟩ := List.cons.inj hnodes
      simp [Declaration.bare, hprimary, hadditions]

end Document

/-! ## Entries -/

/-- An entry without its description. -/
def TypeEntry.bare (r : TypeEntry) : TypeEntry := { r with description := none }

open Document (Outline Definition RootOperation typeNodes schemaNodes directiveNodes nodesOf)

/-- What nodes say is gathered alike if each of them says it without what is dropped. -/
theorem gather_bare {α : Type} {part : Document.Content → Option (List α)}
    (h : ∀ c, part c.bare = part c) (ns : List Document.TypeNode) :
    gather part (ns.map Document.TypeNode.bare) = gather part ns := by
  rw [gather, gather, List.filterMap_map]
  exact congrArg _ (List.filterMap_congr fun n _ => h n.content)

theorem gatherFor_bare {α : Type} {part : Document.Content → Option (List α)}
    (h : ∀ c, part c.bare = part c) (d : Document.Declaration) :
    gatherFor part d.bare = gatherFor part d := by
  have hnodes : d.bare.nodes = d.nodes.map Document.TypeNode.bare := rfl
  have hprimary : part d.bare.primary.content = part d.primary.content := h _
  rw [gatherFor, gatherFor, hnodes, hprimary, gather_bare h]

/-- Descriptions and values matter to an entry only for its description. -/
theorem TypeEntry.ofDeclaration_bare (d : Document.Declaration) :
    ofDeclaration d.bare = (ofDeclaration d).bare := by
  have hkind : d.bare.primary.kind = d.primary.kind := d.primary.kind_bare
  have hdescription : d.bare.primary.description = none := by
    obtain ⟨⟨_ | _, name, ds, c⟩, additions⟩ := d <;> rfl
  have hinterfaces : d.bare.nodes.flatMap (fun n => n.content.interfaces.map Name.text) =
      d.nodes.flatMap fun n => n.content.interfaces.map Name.text := by
    have hnodes : d.bare.nodes = d.nodes.map Document.TypeNode.bare := rfl
    rw [hnodes, List.flatMap_map]
    exact List.flatMap_congr fun n _ => congrArg _ n.content.interfaces_bare
  rw [ofDeclaration, ofDeclaration, TypeEntry.bare, hkind, hdescription, hinterfaces,
    gatherFor_bare fieldsOf?_bare, gatherFor_bare valuesOf?_bare, gatherFor_bare membersOf?_bare]

/-- Types without their descriptions. -/
def bareTypes (types : Table TypeEntry) : Table TypeEntry :=
  types.mapWithKey fun _ r => r.bare

/-- Dropping descriptions drops no type. -/
theorem contains_bareTypes (types : Table TypeEntry) (name : String) :
    (bareTypes types).contains name = types.contains name := by
  rw [Table.contains, Table.contains, bareTypes, Table.get?_mapWithKey, Option.isSome_map]

theorem implementorsOf_bareTypes (types : Table TypeEntry) (target : String) :
    implementorsOf (bareTypes types) target = implementorsOf types target := by
  rw [implementorsOf, bareTypes, Table.rows_mapWithKey, List.flatMap_map]
  rfl

/-- Descriptions do not matter to linking. -/
theorem linkImplementors_bareTypes (types : Table TypeEntry) :
    linkImplementors (bareTypes types) = bareTypes (linkImplementors types) := by
  rw [linkImplementors_eq, linkImplementors_eq]
  refine Table.ext_rows ?_
  simp only [bareTypes, Table.rows_mapWithKey, List.map_map]
  refine List.map_congr_left fun e _ => ?_
  have himplementors := implementorsOf_bareTypes types e.1
  simp only [Function.comp_apply, linkedEntry, TypeEntry.bare, ← himplementors]
  rfl

/-! ## Catalogs -/

/-- A catalog without the descriptions of its types. -/
def Catalog.bare (c : Catalog) : Catalog := ⟨bareTypes c.types, c.directiveNames, c.bindings⟩

/-- Two documents that say the same, apart from descriptions and values. -/
structure Document.Alike (ds es : List Definition) : Prop where
  types : (typeNodes ds).map Document.TypeNode.bare = (typeNodes es).map Document.TypeNode.bare
  directives : (directiveNodes ds).map (·.name) = (directiveNodes es).map (·.name)
  /-- The operations of a schema may come in different orders. -/
  schemas : List.Forall₂ (fun s t => s.operations.Perm t.operations ∧
    (s.operations.map RootOperation.operation).Nodup) (schemaNodes ds) (schemaNodes es)

namespace Document.Alike

variable {ds es : List Definition} {o p : Outline} {c : Catalog}

theorem isFresh (h : Alike ds es) (hds : Document.IsFresh ds) : Document.IsFresh es := by
  rw [Document.isFresh_iff] at hds ⊢
  rwa [← Document.mentions_eq_of_bare h.types, ← h.schemas.length_eq]

/-- Definitions that are alike make entries that are, but for descriptions. -/
theorem typesOf_eq (h : Alike ds es) (ho : o.Holds ds) (hp : p.Holds es) :
    bareTypes (Catalog.typesOf o) = bareTypes (Catalog.typesOf p) := by
  rw [Catalog.typesOf, Catalog.typesOf, ← linkImplementors_bareTypes, ← linkImplementors_bareTypes]
  refine congrArg _ (Table.ext_get? ?_ fun name => ?_)
  · simp [bareTypes, entriesOf, ho.keys, hp.keys, Document.typeNames_eq_of_bare h.types]
  · have hentry : ∀ o : Outline, (bareTypes (entriesOf o)).get? name =
        ((o.types.get? name).map Document.Declaration.bare).map TypeEntry.ofDeclaration := by
      intro o
      rw [bareTypes, entriesOf, Table.get?_mapWithKey, Table.get?_mapWithKey, Option.map_map,
        Option.map_map]
      exact congrArg (Option.map · _) (funext fun d => (TypeEntry.ofDeclaration_bare d).symm)
    rw [hentry, hentry, ho.bare_eq hp h.types]

theorem directiveNames_eq (h : Alike ds es) (ho : o.Holds ds) (hp : p.Holds es) :
    o.directiveNames = p.directiveNames := by
  have hnames : ∀ {o : Outline} {ds}, o.Holds ds →
      o.directiveNames = ((directiveNodes ds).map (·.name)).map Name.text := by
    intro o ds ho
    rw [Outline.directiveNames, ho.directives, List.map_map]
    rfl
  rw [hnames ho, hnames hp, h.directives]

/-- Outlines of such documents are catalogued alike. -/
theorem ofOutline (h : Alike ds es) (ho : o.Holds ds) (hp : p.Holds es)
    (hc : Catalog.ofOutline o = .ok c) :
    ∃ c', Catalog.ofOutline p = .ok c' ∧ c'.bare = c.bare := by
  have htypes := h.typesOf_eq ho hp
  have hnames := h.directiveNames_eq ho hp
  -- the bindings only ask which types there are
  have hcontains : ∀ name, (Catalog.typesOf o).contains name = (Catalog.typesOf p).contains name :=
    fun name => by
      rw [← contains_bareTypes, htypes, contains_bareTypes]
  have hschemas := h.schemas
  rw [← ho.schema, ← hp.schema] at hschemas
  rw [Catalog.ofOutline] at hc ⊢
  cases hs : o.schema with
  | none =>
    rw [hs] at hc hschemas
    cases hc
    rw [Option.toList_eq_nil_iff.1 (List.forall₂_nil_left_iff.1 hschemas)]
    exact ⟨_, rfl, by rw [Catalog.bare, Catalog.bare, htypes, hnames]⟩
  | some s =>
    rw [hs] at hc hschemas
    obtain ⟨t, ts, ⟨hperm, hnodup⟩, hnil, ht⟩ := List.forall₂_cons_left_iff.1 hschemas
    obtain rfl := List.forall₂_nil_left_iff.1 hnil
    rw [Option.toList_eq_singleton_iff.1 ht]
    simp only [Bindings.ofRoots_congr hcontains] at hc
    cases hb : Bindings.ofRoots (Catalog.typesOf p) s.operations with
    | error e =>
      rw [hb] at hc
      cases hc
    | ok b =>
      rw [hb] at hc
      cases hc
      simp only [Bindings.ofRoots_perm hperm hnodup hb]
      exact ⟨_, rfl, by rw [Catalog.bare, Catalog.bare, htypes, hnames]⟩

/-- **Descriptions aside.**  Documents that say the same apart from descriptions and values make
the same catalog apart from descriptions. -/
theorem ofDefinitions (h : Alike ds es) (hc : Catalog.ofDefinitions ds = .ok c) :
    ∃ c', Catalog.ofDefinitions es = .ok c' ∧ c'.bare = c.bare := by
  obtain ⟨o, ho, hout⟩ := Catalog.ofDefinitions_eq_ok_iff.1 hc
  obtain ⟨hfresh, hholds⟩ := Outline.holds_of_ofDefinitions ho
  obtain ⟨p, hp⟩ := (Outline.heeds_repetition.exists_run_iff Outline.holds_empty).2
    (h.isFresh hfresh)
  obtain ⟨c', hc', hbare⟩ := h.ofOutline hholds (Outline.holds_of_ofDefinitions hp).2 hout
  exact ⟨c', Catalog.ofDefinitions_eq_ok_iff.2 ⟨p, hp, hc'⟩, hbare⟩

end Document.Alike

end SchemaCatalog

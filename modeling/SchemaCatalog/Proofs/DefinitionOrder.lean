/-
# The order of definitions

Definitions of different things may change places, as long as those that speak of one type
keep their order; and what says nothing about types may come and go.  The outline then has the
same declarations, in another order, and an entry is made of one declaration alone.  Only what
linking adds depends on all types, and of it only the order.
-/
import Mathlib
import SchemaCatalog.Proofs.Mentions

namespace SchemaCatalog

/-! ## Tables with the same values -/

namespace Table

variable {α : Type} {s t : Table α}

/-- Tables with the same value under each key have the same rows, in any order. -/
theorem rows_perm (h : ∀ key, s.get? key = t.get? key) : s.rows.Perm t.rows := by
  have hnodup : ∀ u : Table α, u.rows.Nodup := fun u =>
    List.Nodup.of_map Prod.fst u.nodup_keys
  refine (List.perm_ext_iff_of_nodup (hnodup s) (hnodup t)).2 fun e => ?_
  obtain ⟨key, value⟩ := e
  rw [mem_rows_iff, mem_rows_iff, h]

theorem keys_perm (h : ∀ key, s.get? key = t.get? key) : s.keys.Perm t.keys :=
  (rows_perm h).map Prod.fst

end Table

/-- The implementors of a type come in the order of the table. -/
theorem implementorsOf_perm {s t : Table TypeEntry} (h : s.rows.Perm t.rows) (target : String) :
    (implementorsOf s target).Perm (implementorsOf t target) :=
  h.flatMap_right _

/-- Operations are bound alike wherever the same types are found. -/
theorem Bindings.ofRoots_congr {s t : Table TypeEntry}
    (h : ∀ name, s.contains name = t.contains name) (es : List Document.RootOperation) :
    ofRoots s es = ofRoots t es := by
  have hroot : addRoot s = addRoot t := by
    funext b e
    rw [addRoot, addRoot, h]
  rw [ofRoots, ofRoots, hroot]

/-! ## Sequences of definitions -/

namespace Document

/-- Two sequences that have the same definitions in any order, those that say nothing about
types left aside, and the nodes of each type in the same order. -/
structure Reordered (ds es : List Definition) : Prop where
  perm : (ds.filter fun d => !d.isAside).Perm (es.filter fun d => !d.isAside)
  nodes : ∀ name, nodesOf name ds = nodesOf name es

/-- The interfaces that the nodes of a type declare, in document order. -/
def declaredInterfaces (name : String) (ds : List Definition) : List String :=
  (nodesOf name ds).flatMap fun n => n.content.interfaces.map Name.text

variable {ds es : List Definition}

theorem Reordered.symm (h : Reordered ds es) : Reordered es ds :=
  ⟨h.perm.symm, fun name => (h.nodes name).symm⟩

/-- Of definitions without those left aside, the same are picked by their role. -/
theorem filterMap_filter_isAside {α : Type} {part : Definition → Option α}
    (h : ∀ a, part (.aside a) = none) (ds : List Definition) :
    (ds.filter fun d => !d.isAside).filterMap part = ds.filterMap part := by
  rw [List.filterMap_filter]
  refine List.filterMap_congr fun d _ => ?_
  cases d with
  | aside a => simp [Definition.isAside, h]
  | schema | type | directive => rfl

theorem Reordered.filterMap {α : Type} (h : Reordered ds es) {part : Definition → Option α}
    (hpart : ∀ a, part (.aside a) = none) : (ds.filterMap part).Perm (es.filterMap part) := by
  rw [← filterMap_filter_isAside hpart ds, ← filterMap_filter_isAside hpart es]
  exact h.perm.filterMap part

theorem Reordered.typeNames (h : Reordered ds es) : (typeNames ds).Perm (typeNames es) :=
  have hnodes : (ds.filterMap Definition.typeNode?).Perm (es.filterMap Definition.typeNode?) :=
    h.filterMap fun _ => rfl
  hnodes.map _

theorem Reordered.schemaNodes (h : Reordered ds es) : (schemaNodes ds).Perm (schemaNodes es) :=
  h.filterMap fun _ => rfl

theorem Reordered.directiveNodes (h : Reordered ds es) :
    (directiveNodes ds).Perm (directiveNodes es) :=
  h.filterMap fun _ => rfl

/-! ## Outlines -/

/-- Whether mentions may stand behind each other is a matter of each type alone. -/
theorem pairwise_follows_iff_nodes (ds : List Definition) :
    (mentions ds).Pairwise Mention.Follows ↔
      ∀ name, ((nodesOf name ds).map TypeNode.mention).Pairwise Mention.Follows := by
  simp only [mentions_nodesOf]
  generalize mentions ds = ms
  refine ⟨fun h name => h.filter _, fun h => ?_⟩
  induction ms with
  | nil => exact .nil
  | cons m ms ih =>
    refine .cons (fun k hk hname => ?_) (ih fun name => (h name).sublist ?_)
    · have hm := h m.typeName
      rw [List.filter_cons_of_pos (by simp)] at hm
      exact List.rel_of_pairwise_cons hm (List.mem_filter.2 ⟨hk, by simp [hname]⟩) hname
    · exact (List.sublist_cons_self m ms).filter _

/-- What repeats nothing repeats nothing in another order. -/
theorem Reordered.isFresh_iff (h : Reordered ds es) : IsFresh ds ↔ IsFresh es := by
  rw [Document.isFresh_iff, Document.isFresh_iff, pairwise_follows_iff_nodes,
    pairwise_follows_iff_nodes, h.schemaNodes.length_eq]
  simp only [h.nodes]

/-- What an outline declares of a type is told by the nodes of that type. -/
theorem Outline.Holds.get?_eq {o p : Outline} (ho : o.Holds ds) (hp : p.Holds es)
    (h : Reordered ds es) (name : String) : o.types.get? name = p.types.get? name := by
  have hsome : (o.types.get? name).isSome = true ↔ (p.types.get? name).isSome = true := by
    rw [ho.get?_isSome_iff, hp.get?_isSome_iff, h.typeNames.mem_iff]
  cases hd : o.types.get? name with
  | none =>
    cases he : p.types.get? name with
    | none => rfl
    | some e => simp [hd, he] at hsome
  | some d =>
    cases he : p.types.get? name with
    | none => simp [hd, he] at hsome
    | some e =>
      have hnodes : d.nodes = e.nodes := by
        rw [ho.nodes name d hd, hp.nodes name e he, h.nodes]
      obtain ⟨primary, additions⟩ := d
      obtain ⟨primary', additions'⟩ := e
      obtain ⟨rfl, rfl⟩ := List.cons.inj hnodes
      rfl

/-- The definition of the schema is the same in any order. -/
theorem Outline.Holds.schema_eq {o p : Outline} (ho : o.Holds ds) (hp : p.Holds es)
    (h : Reordered ds es) : o.schema = p.schema := by
  have hperm := h.schemaNodes
  rw [← ho.schema, ← hp.schema] at hperm
  cases hs : o.schema with
  | none =>
    rw [hs] at hperm
    exact (Option.toList_eq_nil_iff.1 hperm.symm.eq_nil).symm
  | some s =>
    rw [hs] at hperm
    exact (Option.toList_eq_singleton_iff.1 (List.singleton_perm.1 hperm).symm).symm

end Document

/-! ## Catalogs -/

open Document (Definition Outline Reordered declaredInterfaces)

variable {ds es : List Definition} {o p : Outline} {c c' : Catalog}

theorem Catalog.ofDefinitions_eq_ok_iff : Catalog.ofDefinitions ds = .ok c ↔
    ∃ o, Outline.ofDefinitions ds = .ok o ∧ Catalog.ofOutline o = .ok c := by
  rw [Catalog.ofDefinitions]
  cases Outline.ofDefinitions ds with
  | error e => simp
  | ok o =>
    cases h : Catalog.ofOutline o <;> simp [h]

/-- Outlines with one definition of the schema and the same types bind operations alike. -/
theorem Catalog.bindings_of_ofOutline (hschema : o.schema = p.schema)
    (htypes : ∀ name, (typesOf o).contains name = (typesOf p).contains name)
    (h : Catalog.ofOutline o = .ok c) :
    ∃ c', Catalog.ofOutline p = .ok c' ∧ c.bindings = c'.bindings := by
  rw [Catalog.ofOutline] at h ⊢
  rw [← hschema]
  cases hs : o.schema with
  | none =>
    rw [hs] at h
    cases h
    exact ⟨_, rfl, rfl⟩
  | some s =>
    simp only [hs, ← Bindings.ofRoots_congr htypes] at h ⊢
    cases hb : Bindings.ofRoots (typesOf o) s.operations with
    | error e =>
      rw [hb] at h
      cases h
    | ok b =>
      rw [hb] at h
      cases h
      exact ⟨_, rfl, rfl⟩

/-- The entries of two outlines of reordered definitions are the same before they are linked. -/
theorem get?_entriesOf_eq (ho : o.Holds ds) (hp : p.Holds es) (h : Reordered ds es)
    (name : String) : (entriesOf o).get? name = (entriesOf p).get? name := by
  rw [entriesOf, entriesOf, Table.get?_mapWithKey, Table.get?_mapWithKey, ho.get?_eq hp h]

theorem keys_typesOf (o : Outline) : (Catalog.typesOf o).keys = (entriesOf o).keys := by
  rw [Catalog.typesOf, linkImplementors_eq, Table.keys_mapWithKey]

/-- What an entry declares before it is linked. -/
theorem interfaces_of_entry (ho : o.Holds ds) {name : String} {r : TypeEntry}
    (hr : (entriesOf o).get? name = some r) : r.interfaces = declaredInterfaces name ds := by
  obtain ⟨d, -, hnodes, rfl⟩ := get?_entriesOf ho hr
  rw [declaredInterfaces, ← hnodes]
  rfl

/-- Two entries of a type that were linked in different orders: they differ only in the order of
the implementors that an interface lists behind what it declares. -/
structure TypeEntry.SameUpToLinks (declared : List String) (r r' : TypeEntry) : Prop where
  kind : r.kind = r'.kind
  description : r.description = r'.description
  fields : r.fields = r'.fields
  values : r.values = r'.values
  unionMembers : r.unionMembers = r'.unionMembers
  interfaces : r.kind.isInterface = false → r.interfaces = r'.interfaces
  implementors : r.kind.isInterface = true → ∃ links links',
    r.interfaces = declared ++ links ∧ r'.interfaces = declared ++ links' ∧ links.Perm links'

/-- Linking differs only in the order of what it adds. -/
theorem sameUpToLinks_linkedEntry {s t : Table TypeEntry} (h : s.rows.Perm t.rows) (name : String)
    (r : TypeEntry) :
    (linkedEntry s name r).SameUpToLinks r.interfaces (linkedEntry t name r) where
  kind := rfl
  description := rfl
  fields := rfl
  values := rfl
  unionMembers := rfl
  interfaces hk := by
    replace hk : r.kind.isInterface = false := hk
    simp [linkedEntry, hk]
  implementors hk := by
    replace hk : r.kind.isInterface = true := hk
    refine ⟨implementorsOf s name, implementorsOf t name, ?_, ?_, implementorsOf_perm h name⟩
    · simp [linkedEntry, hk]
    · simp [linkedEntry, hk]

/-- What can be catalogued in one order can be catalogued in another. -/
theorem Catalog.exists_of_reordered (h : Reordered ds es) (hc : Catalog.ofDefinitions ds = .ok c) :
    ∃ c', Catalog.ofDefinitions es = .ok c' ∧ c.bindings = c'.bindings := by
  obtain ⟨o, ho, hout⟩ := Catalog.ofDefinitions_eq_ok_iff.1 hc
  obtain ⟨hfresh, hholds⟩ := Outline.holds_of_ofDefinitions ho
  obtain ⟨p, hp⟩ := (Outline.heeds_repetition.exists_run_iff Outline.holds_empty).2
    (h.isFresh_iff.1 hfresh)
  have hholds' := (Outline.holds_of_ofDefinitions hp).2
  have hkeys := Table.keys_perm (get?_entriesOf_eq hholds hholds' h)
  have htypes : ∀ name, (typesOf o).contains name = (typesOf p).contains name := by
    intro name
    rw [Bool.eq_iff_iff, Table.contains_iff, Table.contains_iff, keys_typesOf, keys_typesOf,
      hkeys.mem_iff]
  obtain ⟨c', hc', hbindings⟩ :=
    Catalog.bindings_of_ofOutline (hholds.schema_eq hholds' h) htypes hout
  exact ⟨c', Catalog.ofDefinitions_eq_ok_iff.2 ⟨p, hp, hc'⟩, hbindings⟩

/-- **The order of definitions.**  Let definitions change places so that those of each type keep
their order, and let definitions that say nothing about types come and go.  Then a catalog can
be made before exactly if it can be made after.  It has the same types and the same schema
definition, and the same directives in some order; and the entries of a type are the same,
except for the order in which an interface lists its implementors behind what it declares
itself. -/
theorem Catalog.ofDefinitions_reordered (h : Reordered ds es) :
    ((∃ c, Catalog.ofDefinitions ds = .ok c) ↔ ∃ c, Catalog.ofDefinitions es = .ok c) ∧
    ∀ c c', Catalog.ofDefinitions ds = .ok c → Catalog.ofDefinitions es = .ok c' →
      c.types.keys.Perm c'.types.keys ∧
      (∀ name r r', c.get? name = some r → c'.get? name = some r' →
        r.SameUpToLinks (declaredInterfaces name ds) r') ∧
      c.bindings = c'.bindings ∧ c.directiveNames.Perm c'.directiveNames := by
  refine ⟨⟨?_, ?_⟩, fun c c' hc hc' => ?_⟩
  · rintro ⟨c, hc⟩
    obtain ⟨c', hc', -⟩ := Catalog.exists_of_reordered h hc
    exact ⟨c', hc'⟩
  · rintro ⟨c, hc⟩
    obtain ⟨c', hc', -⟩ := Catalog.exists_of_reordered h.symm hc
    exact ⟨c', hc'⟩
  · obtain ⟨o, ho, htypes, hdirectives⟩ := Catalog.ofDefinitions_eq_ok hc
    obtain ⟨p, hp, htypes', hdirectives'⟩ := Catalog.ofDefinitions_eq_ok hc'
    have hholds := (Outline.holds_of_ofDefinitions ho).2
    have hholds' := (Outline.holds_of_ofDefinitions hp).2
    have hentries := get?_entriesOf_eq hholds hholds' h
    refine ⟨?_, fun name r r' hr hr' => ?_, ?_, ?_⟩
    · rw [htypes, htypes', keys_typesOf, keys_typesOf]
      exact Table.keys_perm hentries
    · rw [Catalog.get?, htypes, Catalog.typesOf, get?_linkImplementors,
        Option.map_eq_some_iff] at hr
      rw [Catalog.get?, htypes', Catalog.typesOf, get?_linkImplementors, ← hentries,
        Option.map_eq_some_iff] at hr'
      obtain ⟨s, hs, rfl⟩ := hr
      obtain ⟨t, ht, rfl⟩ := hr'
      obtain rfl : s = t := Option.some.inj (hs.symm.trans ht)
      rw [← interfaces_of_entry hholds hs]
      exact sameUpToLinks_linkedEntry (Table.rows_perm hentries) name s
    · obtain ⟨c'', hc'', hbindings⟩ := Catalog.exists_of_reordered h hc
      cases hc'.symm.trans hc''
      exact hbindings
    · rw [hdirectives, hdirectives', Outline.directiveNames, Outline.directiveNames,
        hholds.directives, hholds'.directives]
      exact h.directiveNodes.map _

/-- An interface that is extended between its two implementors, and a schema that is defined
before or behind the types that it names. -/
theorem Catalog.ofDefinitions_reordered_of_interface :
    let a : Name := ⟨"A", by decide⟩
    let b : Name := ⟨"B", by decide⟩
    let i : Name := ⟨"I", by decide⟩
    let object (n : Name) : Document.TypeNode := ⟨.definition none, n, [], .object [i] []⟩
    let base : Document.TypeNode := ⟨.definition none, i, [], .interface [] []⟩
    let addition : Document.TypeNode := ⟨.extension, i, [], .interface [i] []⟩
    let front : List Definition := [.schema ⟨none, [], [⟨.query, some a⟩]⟩, .type (object a)]
    let back : List Definition := [.type base, .type addition, .type (object b)]
    let ds := front ++ back
    let es := back ++ .aside .operation :: front
    let implementor : TypeEntry := ⟨.definition .object, none, [], [], [], ["I"]⟩
    let r : TypeEntry := ⟨.definition .interface, none, [], [], [], ["I", "A", "I", "B"]⟩
    let r' : TypeEntry := ⟨.definition .interface, none, [], [], [], ["I", "I", "B", "A"]⟩
    let bindings : Bindings := Bindings.empty.bind .query "A"
    let c : Catalog :=
      ⟨⟨[("A", implementor), ("I", r), ("B", implementor)], by decide⟩, [], some bindings⟩
    let c' : Catalog :=
      ⟨⟨[("I", r'), ("B", implementor), ("A", implementor)], by decide⟩, [], some bindings⟩
    Reordered ds es ∧ Catalog.ofDefinitions ds = .ok c ∧ Catalog.ofDefinitions es = .ok c' ∧
      r.SameUpToLinks (declaredInterfaces "I" ds) r' := by
  intro a b i object base addition front back ds es implementor r r' bindings c c'
  have h : Reordered ds es := by
    refine ⟨@List.perm_append_comm _ front back, fun name => ?_⟩
    have hds : Document.typeNodes ds = [object a, base, addition, object b] := rfl
    have hes : Document.typeNodes es = [base, addition, object b, object a] := rfl
    rw [Document.nodesOf, Document.nodesOf, hds, hes]
    by_cases hname : name = "A"
    · subst hname
      rfl
    · have hother : ¬(object a).name.text = name := Ne.symm hname
      simp [List.filter_cons, hother]
  have hc : Catalog.ofDefinitions ds = .ok c := by cbv
  have hc' : Catalog.ofDefinitions es = .ok c' := by cbv
  obtain ⟨-, hentries, -⟩ := (Catalog.ofDefinitions_reordered h).2 c c' hc hc'
  exact ⟨h, hc, hc', hentries "I" r r' rfl rfl⟩

end SchemaCatalog

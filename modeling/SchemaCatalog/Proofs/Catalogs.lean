/-
# Where a catalog comes from

A catalog that is made comes from an outline of the definitions of one text.  What an
entry declares is what the nodes of its type say.
-/
import SchemaCatalog.Proofs.Outlines
import SchemaCatalog.Source

namespace SchemaCatalog

open Document (Definition Outline nodesOf typeNames)

/-! ## The outline behind a catalog -/

/-- A catalog is that of an outline: its types are linked entries, and its directives
are those of the outline. -/
theorem Catalog.ofDefinitions_eq_ok {ds : List Definition} {c : Catalog}
    (h : Catalog.ofDefinitions ds = .ok c) :
    ∃ o, Outline.ofDefinitions ds = .ok o ∧ c.types = Catalog.typesOf o ∧
      c.directiveNames = o.directiveNames := by
  rw [Catalog.ofDefinitions] at h
  cases ho : Outline.ofDefinitions ds with
  | error e => simp [ho] at h
  | ok o =>
    simp only [ho] at h
    refine ⟨o, rfl, ?_⟩
    cases hs : o.schema with
    | none =>
      simp only [Catalog.ofOutline, hs, Except.ok.injEq] at h
      subst h
      exact ⟨rfl, rfl⟩
    | some s =>
      cases hb : Bindings.ofRoots (Catalog.typesOf o) s.operations with
      | error e => simp [Catalog.ofOutline, hs, hb] at h
      | ok b =>
        simp only [Catalog.ofOutline, hs, hb, Except.ok.injEq] at h
        subst h
        exact ⟨rfl, rfl⟩

/-- A source that is catalogued comes down to one text, and that text can be read. -/
theorem Source.catalog_eq_ok {s : Source} {c : Catalog} (h : s.catalog = .ok c) :
    ∃ text ds, s.toText = .ok text ∧ Catalog.definitionsOf text = .ok ds ∧
      Catalog.ofDefinitions ds = .ok c := by
  rw [Source.catalog, Attempt.bind_eq, Attempt.bind_eq_ok_iff] at h
  obtain ⟨text, htext, hc⟩ := h
  rw [Attempt.ofExcept_eq_ok_iff, Catalog.ofText] at hc
  cases hd : Catalog.definitionsOf text with
  | error e => simp [hd] at hc
  | ok ds => exact ⟨text, ds, htext, hd, by simpa [hd] using hc⟩

/-- A source is catalogued as the definitions are that its text is read as. -/
theorem Source.catalog_eq {s : Source} {text : String} {ds : List Definition}
    (htext : s.toText = .ok text) (hread : Catalog.definitionsOf text = .ok ds) :
    s.catalog = .ofExcept (Catalog.ofDefinitions ds) := by
  simp only [Source.catalog, htext, Attempt.bind_eq, Attempt.ok_bind, Catalog.ofText, hread]

/-! ## What the entries declare -/

namespace Document

/-- Some node of a type names a type as its interface. -/
def Declares (ds : List Definition) (implementor target : String) : Prop :=
  ∃ n ∈ nodesOf implementor ds, target ∈ n.content.interfaces.map Name.text

/-- The types of an outline are those that its definitions speak of. -/
theorem Outline.Holds.get?_isSome_iff {o : Outline} {ds : List Definition} (h : o.Holds ds)
    (name : String) : (o.types.get? name).isSome = true ↔ name ∈ typeNames ds := by
  rw [← Table.contains, h.contains_eq, List.contains_iff_mem]

end Document

/-- The entry of a type is made of all its nodes. -/
theorem get?_entriesOf {o : Outline} {ds : List Definition} (h : o.Holds ds) {name : String}
    {r : TypeEntry} (hr : (entriesOf o).get? name = some r) :
    ∃ d : Document.Declaration, o.types.get? name = some d ∧ d.nodes = nodesOf name ds ∧
      r = .ofDeclaration d := by
  rw [entriesOf, Table.get?_mapWithKey, Option.map_eq_some_iff] at hr
  obtain ⟨d, hd, rfl⟩ := hr
  exact ⟨d, hd, h.nodes name d hd, rfl⟩

/-- What one type declares of another is in its entry. -/
theorem exists_entry_of_declares {o : Outline} {ds : List Definition} (h : o.Holds ds)
    {implementor target : String} (hd : Document.Declares ds implementor target) :
    ∃ r, (entriesOf o).get? implementor = some r ∧ target ∈ r.interfaces := by
  obtain ⟨n, hn, ht⟩ := hd
  have hname : implementor ∈ typeNames ds := by
    rw [nodesOf, List.mem_filter] at hn
    exact of_decide_eq_true hn.2 ▸ List.mem_map_of_mem hn.1
  obtain ⟨d, hd⟩ := Option.isSome_iff_exists.1 ((h.get?_isSome_iff implementor).2 hname)
  refine ⟨.ofDeclaration d, by rw [entriesOf, Table.get?_mapWithKey, hd]; rfl, ?_⟩
  show target ∈ d.nodes.flatMap fun n => n.content.interfaces.map Name.text
  rw [show d.nodes = nodesOf implementor ds from h.nodes _ d hd]
  exact List.mem_flatMap.2 ⟨n, hn, ht⟩

end SchemaCatalog

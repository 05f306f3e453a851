/-
# Fields of a catalog

The fields of a type are traced to the nodes that speak of it.  The first node tells the kind
of the type, and the others add fields whatever their kinds are.  So a field of an input object
takes arguments exactly if an object or an interface of the same name adds it with arguments.
-/
import SchemaCatalog.Proofs.EntryContents

namespace SchemaCatalog

open Document (Content Definition Field Outline TypeNode nodesOf)

/-! ## Fields of any type -/

/-- The fields that the nodes of a type write, in order. -/
def fieldNodesOf (name : String) (ds : List Definition) : List FieldNode :=
  (nodesOf name ds).flatMap (·.content.fieldNodes)

/-- The shape of the type that a kind of node describes. -/
def EntryKind.shape? : EntryKind → Option Shape
  | definition s | extension s => some s
  | operation => none

theorem shape?_kind (n : TypeNode) : n.kind.shape? = some n.content.shape := by
  rw [TypeNode.kind]
  cases n.role <;> rfl

/-- Whether there is a list of fields depends on the shape only. -/
theorem EntryKind.hasFields_of_shape? {k : EntryKind} {shape : Shape} (h : k.shape? = some shape) :
    k.hasFields = shape.hasFields := by
  cases k with
  | definition | extension => exact congrArg Shape.hasFields (Option.some.inj h)
  | operation => cases h

namespace Catalog

variable {ds : List Definition} {c : Catalog} {name : String} {r : TypeEntry}

/-- The entry of a type is that of its nodes, up to links. -/
theorem exists_declaration (h : Catalog.ofDefinitions ds = .ok c) (hr : c.get? name = some r) :
    ∃ d : Document.Declaration, d.nodes = nodesOf name ds ∧
      (∀ n ∈ d.additions, n.isExtension = true) ∧
      r.kind = d.primary.kind ∧ r.fields = (TypeEntry.ofDeclaration d).fields := by
  obtain ⟨o, ho, htypes, -⟩ := Catalog.ofDefinitions_eq_ok h
  have hholds := (Outline.holds_of_ofDefinitions ho).2
  rw [Catalog.get?, htypes, typesOf, get?_linkImplementors, Option.map_eq_some_iff] at hr
  obtain ⟨r, hr, rfl⟩ := hr
  obtain ⟨d, hd, hnodes, rfl⟩ := get?_entriesOf hholds hr
  exact ⟨d, hnodes, hholds.additions name d hd, rfl, rfl⟩

/-- **Fields.**  If its kind has any, the fields of a type are those that its nodes write. -/
theorem fields_of_get? (h : Catalog.ofDefinitions ds = .ok c) (hr : c.get? name = some r) :
    r.fields = if r.kind.hasFields then (fieldNodesOf name ds).map FieldNode.entry else [] := by
  obtain ⟨d, hnodes, -, hkind, hfields⟩ := exists_declaration h hr
  rw [hfields, hkind, TypeEntry.fields_ofDeclaration, hnodes,
    EntryKind.hasFields_of_shape? (shape?_kind _)]
  rfl

/-- Nodes of another shape than that of the type only add to it. -/
theorem isExtension_of_shape_ne (h : Catalog.ofDefinitions ds = .ok c)
    (hr : c.get? name = some r) {n : TypeNode} (hn : n ∈ nodesOf name ds)
    (hne : r.kind.shape? ≠ some n.content.shape) : n.isExtension = true := by
  obtain ⟨d, hnodes, hadditions, hkind, -⟩ := exists_declaration h hr
  rw [← hnodes] at hn
  rcases List.mem_cons.1 hn with rfl | hn
  · rw [hkind, shape?_kind] at hne
    exact absurd rfl hne
  · exact hadditions n hn

end Catalog

/-! ## Arguments -/

/-- The entry of a field has the arguments that are written. -/
theorem FieldNode.arguments_entry (f : FieldNode) :
    f.entry.arguments = f.arguments.map ArgumentEntry.ofInputValue := by
  cases f <;> rfl

theorem FieldNode.arguments_entry_eq_nil_iff (f : FieldNode) :
    f.entry.arguments = [] ↔ f.arguments = [] := by
  rw [arguments_entry, List.map_eq_nil_iff]

/-- Only an object or an interface writes a field with arguments. -/
theorem Document.Content.exists_output_of_arguments {c : Content} {f : FieldNode}
    (hf : f ∈ c.fieldNodes) (ha : f.arguments ≠ []) :
    (c.shape = .object ∨ c.shape = .interface) ∧ ∃ g, f = .output g := by
  cases c with
  | object is fs =>
    obtain ⟨g, -, rfl⟩ := List.mem_map.1 hf
    exact ⟨Or.inl rfl, g, rfl⟩
  | interface is fs =>
    obtain ⟨g, -, rfl⟩ := List.mem_map.1 hf
    exact ⟨Or.inr rfl, g, rfl⟩
  | inputObject vs =>
    obtain ⟨v, -, rfl⟩ := List.mem_map.1 hf
    exact absurd rfl ha
  | enum | scalar | union => cases hf

/-- **Arguments of input objects.**  Whatever a source is, the fields of an input object in its
catalog are those that the nodes of the type write, and none of them takes arguments unless one
that an object or an interface of the same name adds does. -/
theorem Source.arguments_of_inputObject {s : Source} {c : Catalog} (h : s.catalog = .ok c) :
    ∃ text ds, s.toText = .ok text ∧ Catalog.definitionsOf text = .ok ds ∧
      ∀ name r, c.get? name = some r → r.kind.shape? = some .inputObject →
        List.Forall₂ FieldEntry.Records r.fields (fieldNodesOf name ds) ∧
        ((∀ e ∈ r.fields, e.arguments = []) ↔ ∀ n ∈ nodesOf name ds,
          n.content.shape ≠ .inputObject → ∀ f ∈ n.content.fieldNodes, f.arguments = []) ∧
        ∀ e ∈ r.fields, e.arguments ≠ [] → ∃ n ∈ nodesOf name ds, n.isExtension = true ∧
          (n.content.shape = .object ∨ n.content.shape = .interface) ∧
          ∃ f : Field, .output f ∈ n.content.fieldNodes ∧ e.Records (.output f) := by
  obtain ⟨text, ds, htext, hds, hc⟩ := Source.catalog_eq_ok h
  refine ⟨text, ds, htext, hds, fun name r hr hshape => ?_⟩
  have hfields : r.fields = (fieldNodesOf name ds).map FieldNode.entry := by
    rw [Catalog.fields_of_get? hc hr, EntryKind.hasFields_of_shape? hshape]
    rfl
  have hforeign {n : TypeNode} (hn : n.content.shape = .object ∨ n.content.shape = .interface) :
      n.content.shape ≠ .inputObject := by
    rcases hn with hn | hn <;> rw [hn] <;> nofun
  have hadded : ∀ e ∈ r.fields, e.arguments ≠ [] → ∃ n ∈ nodesOf name ds,
      n.isExtension = true ∧ (n.content.shape = .object ∨ n.content.shape = .interface) ∧
      ∃ f : Field, .output f ∈ n.content.fieldNodes ∧ e.Records (.output f) := by
    intro e he ha
    rw [hfields] at he
    obtain ⟨f, hf, rfl⟩ := List.mem_map.1 he
    obtain ⟨n, hn, hf⟩ := List.mem_flatMap.1 hf
    rw [Ne, f.arguments_entry_eq_nil_iff] at ha
    obtain ⟨hother, g, rfl⟩ := Content.exists_output_of_arguments hf ha
    have hne : r.kind.shape? ≠ some n.content.shape := by
      rw [hshape]
      exact fun h => hforeign hother (Option.some.inj h).symm
    exact ⟨n, hn, Catalog.isExtension_of_shape_ne hc hr hn hne, hother, g, hf,
      FieldNode.records_entry _⟩
  refine ⟨?_, ⟨?_, ?_⟩, hadded⟩
  · rw [hfields]
    exact forall₂_map_left FieldNode.records_entry _
  · intro hall n hn _ f hf
    have he : f.entry ∈ r.fields := by
      rw [hfields]
      exact List.mem_map_of_mem (List.mem_flatMap.2 ⟨n, hn, hf⟩)
    exact f.arguments_entry_eq_nil_iff.1 (hall _ he)
  · intro hall e he
    by_contra ha
    obtain ⟨n, hn, -, hother, f, hf, hrecords⟩ := hadded e he ha
    have harguments := hrecords.arguments
    rw [hall n hn (hforeign hother) _ hf, List.forall₂_nil_right_iff] at harguments
    exact ha harguments

/-- An input object to which an object of the same name adds a field with an argument. -/
theorem Source.arguments_of_inputObject_of_object :
    let int : TypeUse := ⟨"Int", true, false, false⟩
    let f : FieldEntry := ⟨"f", int, [⟨"a", int, false⟩], false⟩
    let r : TypeEntry := ⟨.definition .inputObject, none, [⟨"a", int, [], false⟩, f], [], [], []⟩
    let c : Catalog := ⟨⟨[("X", r)], by decide⟩, [], none⟩
    (Source.text "input X \x7ba: Int\x7d extend type X \x7bf(a: Int): Int\x7d").catalog = .ok c ∧
      r.kind.shape? = some .inputObject ∧ f ∈ r.fields ∧ f.arguments ≠ [] ∧
      ∃ ds, Catalog.definitionsOf
          "input X \x7ba: Int\x7d extend type X \x7bf(a: Int): Int\x7d" = .ok ds ∧
        ∃ n ∈ nodesOf "X" ds, n.isExtension = true ∧
        (n.content.shape = .object ∨ n.content.shape = .interface) ∧
        ∃ g : Field, .output g ∈ n.content.fieldNodes ∧ f.Records (.output g) := by
  intro int f r c
  have hc : (Source.text
      "input X \x7ba: Int\x7d extend type X \x7bf(a: Int): Int\x7d").catalog = .ok c := by rfl
  have hmem : f ∈ r.fields := List.mem_cons_of_mem _ List.mem_cons_self
  have hf : f.arguments ≠ [] := nofun
  obtain ⟨text, ds, htext, hds, h⟩ := Source.arguments_of_inputObject hc
  cases htext
  obtain ⟨-, -, hadded⟩ := h "X" r rfl rfl
  exact ⟨hc, rfl, hmem, hf, ds, hds, hadded f hmem hf⟩

end SchemaCatalog

/-
# Harmony in any order

Definitions are gone through in their order to find the first of them that conflicts with
those before it.  That there is none does not depend on the order: it means that no two of
them contradict each other.
-/
import SchemaCatalog.Proofs.Merging

namespace SchemaCatalog.Fragment

/-! ## Contradictions -/

/-- No two definitions contradict each other: a type has one shape, and an operation starts
from one type. -/
structure IsConsistent (ds : List Definition) : Prop where
  shapes : ∀ t u, .type t ∈ ds → .type u ∈ ds → t.name.text = u.name.text →
    t.content.shape = u.content.shape
  roots : ∀ s u, .schema s ∈ ds → .schema u ∈ ds → ∀ o m n, s.root o = some m →
    u.root o = some n → m.text = n.text

/-- Which definitions there are decides, not their order. -/
theorem IsConsistent.of_subset {ds es : List Definition} (h : IsConsistent es)
    (hsub : ds ⊆ es) : IsConsistent ds where
  shapes t u ht hu := h.shapes t u (hsub ht) (hsub hu)
  roots s u hs hu := h.roots s u (hsub hs) (hsub hu)

theorem mem_typeDefinitions_iff {name : String} {ds : List Definition} {t : TypeDefinition} :
    t ∈ typeDefinitions name ds ↔ .type t ∈ ds ∧ t.name.text = name := by
  rw [typeDefinitions, List.mem_filter, decide_eq_true_eq, List.mem_filterMap]
  refine and_congr_left fun _ => ⟨?_, fun h => ⟨_, h, rfl⟩⟩
  rintro ⟨d, hd, ht⟩
  cases d with
  | type u =>
    cases ht
    exact hd
  | schema | directive | extension => cases ht

theorem mem_schemaDefinitions_iff {ds : List Definition} {s : SchemaDefinition} :
    s ∈ schemaDefinitions ds ↔ .schema s ∈ ds := by
  rw [schemaDefinitions, List.mem_filterMap]
  refine ⟨?_, fun h => ⟨_, h, rfl⟩⟩
  rintro ⟨d, hd, hs⟩
  cases d with
  | schema u =>
    cases hs
    exact hd
  | type | directive | extension => cases hs

/-- The type that an operation is first bound to is one that it is bound to. -/
theorem exists_of_boundRoot {o : Operation} {ds : List Definition} {n : Name}
    (h : boundRoot o ds = some n) : ∃ s, .schema s ∈ ds ∧ s.root o = some n := by
  obtain ⟨s, hs, hn⟩ := List.exists_of_findSome?_eq_some h
  exact ⟨s, mem_schemaDefinitions_iff.1 hs, hn⟩

/-- An operation that is bound to some type is first bound to one. -/
theorem exists_boundRoot {o : Operation} {ds : List Definition} {s : SchemaDefinition} {n : Name}
    (hs : .schema s ∈ ds) (hn : s.root o = some n) : ∃ m, boundRoot o ds = some m := by
  rw [← Option.isSome_iff_exists, boundRoot, List.findSome?_isSome_iff]
  exact ⟨s, mem_schemaDefinitions_iff.2 hs, by rw [hn]; rfl⟩

/-- Two types do not conflict exactly if they have the same name. -/
theorem rootConflict?_eq_none_iff {o : Operation} {earlier later : Option Name} :
    rootConflict? o earlier later = none ↔
      ∀ m n, earlier = some m → later = some n → m.text = n.text := by
  cases earlier <;> cases later <;> simp [rootConflict?]

/-! ## Behind other definitions -/

variable {ds : List Definition}

/-- A type fits consistent definitions if all definitions of it have its shape. -/
theorem IsConsistent.conflict?_type_iff (h : IsConsistent ds) (t : TypeDefinition) :
    conflict? ds (.type t) = none ↔
      ∀ u, .type u ∈ ds → u.name.text = t.name.text → u.content.shape = t.content.shape := by
  rw [conflict?, Option.bind_eq_none_iff]
  constructor
  · -- whatever is defined has the shape of the first definition of its name
    intro hfirst u hu hname
    cases hhead : (typeDefinitions t.name.text ds).head? with
    | none =>
      have := mem_typeDefinitions_iff.2 ⟨hu, hname⟩
      rw [List.head?_eq_none_iff.1 hhead] at this
      cases this
    | some first =>
      obtain ⟨hmem, hsame⟩ := mem_typeDefinitions_iff.1 (List.mem_of_mem_head? hhead)
      have hshape := hfirst first hhead
      rw [ite_eq_left_iff] at hshape
      rw [h.shapes u first hu hmem (hname.trans hsame.symm)]
      exact Decidable.byContradiction fun hne => by cases hshape hne
  · intro hall first hhead
    obtain ⟨hmem, hsame⟩ := mem_typeDefinitions_iff.1 (List.mem_of_mem_head? hhead)
    exact if_pos (hall first hmem hsame)

/-- A schema fits consistent definitions if no operation of it starts elsewhere there. -/
theorem IsConsistent.conflict?_schema_iff (h : IsConsistent ds) (s : SchemaDefinition) :
    conflict? ds (.schema s) = none ↔
      ∀ u, .schema u ∈ ds → ∀ o m n, u.root o = some m → s.root o = some n →
        m.text = n.text := by
  have hall : conflict? ds (.schema s) = none ↔
      ∀ o, rootConflict? o (boundRoot o ds) (s.root o) = none := by
    rw [conflict?, List.findSome?_eq_none_iff]
    refine ⟨fun hops o => hops o ?_, fun hops o _ => hops o⟩
    cases o <;> simp
  rw [hall]
  simp only [rootConflict?_eq_none_iff]
  constructor
  · -- each binding agrees with the first one, which the new definition agrees with
    intro hfirst u hu o m n hm hn
    obtain ⟨b, hb⟩ := exists_boundRoot hu hm
    obtain ⟨v, hv, hvb⟩ := exists_of_boundRoot hb
    exact (h.roots u v hu hv o m b hm hvb).trans (hfirst o b n hb hn)
  · intro hroots o m n hm hn
    obtain ⟨u, hu, hum⟩ := exists_of_boundRoot hm
    exact hroots u hu o m n hum hn

/-- A definition that conflicts with none before it contradicts none of them. -/
theorem IsConsistent.concat (h : IsConsistent ds) {d : Definition} (hd : conflict? ds d = none) :
    IsConsistent (ds ++ [d]) where
  shapes t u ht hu hname := by
    rcases List.mem_append.1 ht with ht | ht
    · rcases List.mem_append.1 hu with hu | hu
      · exact h.shapes t u ht hu hname
      · rw [← List.mem_singleton.1 hu] at hd
        exact (h.conflict?_type_iff u).1 hd t ht hname
    · rw [← List.mem_singleton.1 ht] at hd hu
      rcases List.mem_append.1 hu with hu | hu
      · exact ((h.conflict?_type_iff t).1 hd u hu hname.symm).symm
      · cases List.mem_singleton.1 hu
        rfl
  roots s u hs hu o m n hm hn := by
    rcases List.mem_append.1 hs with hs | hs
    · rcases List.mem_append.1 hu with hu | hu
      · exact h.roots s u hs hu o m n hm hn
      · rw [← List.mem_singleton.1 hu] at hd
        exact (h.conflict?_schema_iff u).1 hd s hs o m n hm hn
    · rw [← List.mem_singleton.1 hs] at hd hu
      rcases List.mem_append.1 hu with hu | hu
      · exact ((h.conflict?_schema_iff s).1 hd u hu o n m hn hm).symm
      · cases List.mem_singleton.1 hu
        rw [Option.some.inj (hm.symm.trans hn)]

/-- **Harmony.**  A sequence of definitions is harmonious exactly if no two of them
contradict each other. -/
theorem harmonious_iff (ds : List Definition) : Harmonious ds ↔ IsConsistent ds := by
  induction ds using List.reverseRecOn with
  | nil => exact ⟨fun _ => ⟨by simp, by simp⟩, fun _ => clearAfter_nil _ _⟩
  | append_singleton ds d ih =>
    rw [harmonious_append, ih, clearAfter_cons]
    constructor
    · rintro ⟨h, hd, -⟩
      exact h.concat hd
    · intro h
      have hds := h.of_subset (List.subset_append_left ds [d])
      refine ⟨hds, ?_, clearAfter_nil _ _⟩
      have hd : d ∈ ds ++ [d] := by simp
      cases d with
      | type t =>
        rw [hds.conflict?_type_iff]
        exact fun u hu => h.shapes u t (List.mem_append_left _ hu) hd
      | schema s =>
        rw [hds.conflict?_schema_iff]
        exact fun u hu => h.roots u s (List.mem_append_left _ hu) hd
      | directive => rfl
      | extension => rfl

end SchemaCatalog.Fragment

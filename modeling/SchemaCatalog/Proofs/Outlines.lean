/-
# What an outline holds

The outline of a document is compared with the sequence of its definitions.  A
definition may repeat what was said before it; the first one that does keeps the
document from having an outline.  If there is none, the outline holds every node
of a type under the name of the type, in document order, and nothing else.
-/
import SchemaCatalog.Document.Outline
import SchemaCatalog.Proofs.Objections

namespace SchemaCatalog.Document

/-! ## The definitions of a document by role -/

/-- The node that a definition is, if it speaks of a type. -/
@[simp] def Definition.typeNode? : Definition → Option TypeNode
  | .type n => some n
  | _ => none

/-- The definition of the schema that a definition is, if it is one. -/
@[simp] def Definition.schemaNode? : Definition → Option SchemaNode
  | .schema s => some s
  | _ => none

/-- The definition of a directive that a definition is, if it is one. -/
@[simp] def Definition.directiveNode? : Definition → Option DirectiveNode
  | .directive d => some d
  | _ => none

/-- Whether a definition says nothing about the types of a schema. -/
def Definition.isAside : Definition → Bool
  | .aside _ => true
  | _ => false

/-- The nodes that speak of types, in document order. -/
def typeNodes (ds : List Definition) : List TypeNode := ds.filterMap Definition.typeNode?

/-- The definitions of the schema, in document order. -/
def schemaNodes (ds : List Definition) : List SchemaNode := ds.filterMap Definition.schemaNode?

/-- The definitions of directives, in document order. -/
def directiveNodes (ds : List Definition) : List DirectiveNode :=
  ds.filterMap Definition.directiveNode?

/-- The names of the types that a document speaks of, each as often as it does. -/
def typeNames (ds : List Definition) : List String := (typeNodes ds).map (·.name.text)

/-- The nodes that speak of one type, in document order. -/
def nodesOf (name : String) (ds : List Definition) : List TypeNode :=
  (typeNodes ds).filter (·.name.text = name)

@[simp] theorem typeNodes_concat (ds : List Definition) (d : Definition) :
    typeNodes (ds ++ [d]) = typeNodes ds ++ d.typeNode?.toList := by
  cases d <;> simp [typeNodes]

@[simp] theorem schemaNodes_concat (ds : List Definition) (d : Definition) :
    schemaNodes (ds ++ [d]) = schemaNodes ds ++ d.schemaNode?.toList := by
  cases d <;> simp [schemaNodes]

@[simp] theorem directiveNodes_concat (ds : List Definition) (d : Definition) :
    directiveNodes (ds ++ [d]) = directiveNodes ds ++ d.directiveNode?.toList := by
  cases d <;> simp [directiveNodes]

/-- A node that is no type's leaves the names as they are. -/
@[simp] theorem typeNames_concat (ds : List Definition) (d : Definition) :
    typeNames (ds ++ [d]) = typeNames ds ++ d.typeNode?.toList.map (·.name.text) := by
  simp [typeNames]

@[simp] theorem nodesOf_concat (name : String) (ds : List Definition) (d : Definition) :
    nodesOf name (ds ++ [d]) =
      nodesOf name ds ++ d.typeNode?.toList.filter (·.name.text = name) := by
  simp [nodesOf]

/-- No node speaks of a type whose name does not occur. -/
theorem nodesOf_eq_nil {name : String} {ds : List Definition} (h : name ∉ typeNames ds) :
    nodesOf name ds = [] := by
  rw [nodesOf, List.filter_eq_nil_iff]
  intro n hn hname
  have hmem : n.name.text ∈ typeNames ds := List.mem_map_of_mem hn
  rw [of_decide_eq_true hname] at hmem
  exact h hmem

/-! ## Repetitions -/

/-- What a definition repeats of the definitions before it: the schema may be
defined once, and no type may be defined that was spoken of. -/
def repetition? (before : List Definition) : Definition → Option Repetition
  | .schema _ => if (schemaNodes before).isEmpty then none else some .schemaDefinition
  | .type n =>
    if !n.isExtension && (typeNames before).contains n.name.text then
      some (.typeDefinition n.name.text)
    else none
  | .directive _ | .aside _ => none

/-- No definition of a sequence repeats what was said before it. -/
def IsFresh (ds : List Definition) : Prop := ClearAfter repetition? [] ds

/-! ## What an outline knows of the definitions it was made from -/

/-- An outline holds the definitions of a sequence, each at its place. -/
structure Outline.Holds (o : Outline) (ds : List Definition) : Prop where
  /-- The types come in the order in which they were first spoken of. -/
  keys : o.types.keys = (typeNames ds).eraseDups
  /-- Under each name are all nodes of that name. -/
  nodes : ∀ name d, o.types.get? name = some d → d.nodes = nodesOf name ds
  /-- Whatever comes behind the first node of a type adds to it. -/
  additions : ∀ name d, o.types.get? name = some d → ∀ n ∈ d.additions, n.isExtension = true
  directives : o.directives = directiveNodes ds
  schema : o.schema.toList = schemaNodes ds

namespace Outline

theorem holds_empty : empty.Holds [] where
  keys := rfl
  nodes := by
    intro name d h
    simp [empty, Table.get?, Table.empty] at h
  additions := by
    intro name d h
    simp [empty, Table.get?, Table.empty] at h
  directives := rfl
  schema := rfl

variable {o o' : Outline} {ds : List Definition} {d : Definition} {n : TypeNode}

/-- The types of the outline are those that were spoken of. -/
theorem Holds.contains_eq (h : o.Holds ds) (name : String) :
    o.types.contains name = (typeNames ds).contains name := by
  rw [Bool.eq_iff_iff, Table.contains_iff, h.keys, List.mem_eraseDups, List.contains_iff_mem]

/-! ## One definition more -/

/-- The first node of a type is put behind all others. -/
theorem Holds.declare (h : o.Holds ds) (hn : o.types.contains n.name.text = false) :
    (o.declare n).Holds (ds ++ [.type n]) := by
  have hfresh : n.name.text ∉ typeNames ds := by
    rw [h.contains_eq] at hn
    simpa using hn
  have hget (name : String) : (o.types.insert n.name.text ⟨n, []⟩).get? name =
      if name = n.name.text then some ⟨n, []⟩ else o.types.get? name :=
    Table.get?_insert_of_not_contains hn name
  refine ⟨?_, ?_, ?_, ?_, ?_⟩
  · rw [Outline.declare, Table.keys_insert_of_not_contains hn, h.keys, typeNames_concat,
      List.eraseDups_append]
    simp [List.removeAll, hfresh, List.eraseDups_cons]
  · intro name d hd
    rw [Outline.declare, hget] at hd
    rw [nodesOf_concat]
    split at hd
    · next hname =>
      -- no node of this name came before, so this one is all that is listed
      cases hd
      subst hname
      simp [Declaration.nodes, nodesOf_eq_nil hfresh]
    · next hname => simp [h.nodes name d hd, Definition.typeNode?, Ne.symm hname]
  · intro name d hd
    rw [Outline.declare, hget] at hd
    split at hd
    · cases hd
      simp
    · exact h.additions name d hd
  · simpa [Outline.declare] using h.directives
  · simpa [Outline.declare] using h.schema

/-- A further node of a type is put behind the nodes of that type. -/
theorem Holds.extend (h : o.Holds ds) (hn : o.types.contains n.name.text = true)
    (hext : n.isExtension = true) : (o.extend n).Holds (ds ++ [.type n]) := by
  have hknown : n.name.text ∈ typeNames ds := by
    rw [h.contains_eq] at hn
    simpa using hn
  have hget (name : String) := Table.get?_modify o.types n.name.text (·.add n) name
  refine ⟨?_, ?_, ?_, ?_, ?_⟩
  · rw [Outline.extend, Table.keys_modify, h.keys, typeNames_concat, List.eraseDups_append]
    simp [List.removeAll, hknown]
  · intro name d hd
    rw [Outline.extend, hget] at hd
    rw [nodesOf_concat]
    split at hd
    · next hname =>
      -- the nodes of this name that came before stand in front of the new one
      subst hname
      obtain ⟨d', hd', rfl⟩ := Option.map_eq_some_iff.1 hd
      simp [← h.nodes _ d' hd', Declaration.nodes, Declaration.add]
    · next hname => simp [h.nodes name d hd, Definition.typeNode?, Ne.symm hname]
  · intro name d hd
    rw [Outline.extend, hget] at hd
    split at hd
    · obtain ⟨d', hd', rfl⟩ := Option.map_eq_some_iff.1 hd
      intro m hm
      rcases List.mem_append.1 hm with hm | hm
      · exact h.additions name d' hd' m hm
      · rw [List.mem_singleton.1 hm]
        exact hext
    · exact h.additions name d hd
  · simpa [Outline.extend] using h.directives
  · simpa [Outline.extend] using h.schema

/-- A definition is refused exactly for what it repeats. -/
theorem Holds.add_eq_error_iff (h : o.Holds ds) {r : Repetition} :
    o.add d = .error r ↔ repetition? ds d = some r := by
  cases d with
  | schema s =>
    rw [Outline.add, repetition?, ← h.schema]
    cases o.schema <;> simp
  | type n =>
    rw [Outline.add, Outline.addType, repetition?, ← h.contains_eq]
    cases o.types.contains n.name.text <;> cases n.isExtension <;> simp
  | directive d => simp [Outline.add, repetition?]
  | aside a => simp [Outline.add, repetition?]

/-- A definition that is not refused is put at its place. -/
theorem Holds.add (h : o.Holds ds) (hd : o.add d = .ok o') : o'.Holds (ds ++ [d]) := by
  cases d with
  | schema s =>
    rw [Outline.add] at hd
    split at hd
    · cases hd
    · next hs =>
      cases hd
      have hnone : schemaNodes ds = [] := by
        rw [← h.schema]
        simpa using hs
      refine ⟨?_, ?_, h.additions, ?_, ?_⟩
      · simpa using h.keys
      · simpa using h.nodes
      · simpa using h.directives
      · simp [schemaNodes_concat, Definition.schemaNode?, hnone]
  | type n =>
    rw [Outline.add, Outline.addType] at hd
    split at hd
    · next hknown =>
      split at hd
      · next hext =>
        cases hd
        exact h.extend hknown hext
      · cases hd
    · next hknown =>
      cases hd
      exact h.declare (by simpa using hknown)
  | directive d =>
    cases hd
    refine ⟨?_, ?_, h.additions, ?_, ?_⟩
    · simpa using h.keys
    · simpa using h.nodes
    · simp [directiveNodes_concat, Definition.directiveNode?, h.directives]
    · simpa using h.schema
  | aside a =>
    cases hd
    exact ⟨by simpa using h.keys, by simpa using h.nodes, h.additions,
      by simpa using h.directives, by simpa using h.schema⟩

/-- **One step.**  A definition is refused for what it repeats and else put at its
place. -/
theorem heeds_repetition : Heeds add repetition? Holds where
  refuses h hr := h.add_eq_error_iff.2 hr
  accepts := by
    intro o ds d h hd
    cases hadd : o.add d with
    | ok o' => exact ⟨o', rfl, h.add hadd⟩
    | error r =>
      rw [h.add_eq_error_iff, hd] at hadd
      cases hadd

/-! ## A sequence of definitions -/

/-- The outline of a document holds its definitions, and they repeat nothing. -/
theorem holds_of_ofDefinitions (h : ofDefinitions ds = .ok o) : IsFresh ds ∧ o.Holds ds :=
  heeds_repetition.of_run holds_empty h

/-- Definitions that say nothing about types change no outline. -/
theorem foldlM_filter_aside (o : Outline) (ds : List Definition) :
    (ds.filter fun d => !d.isAside).foldlM add o = ds.foldlM add o := by
  induction ds generalizing o with
  | nil => rfl
  | cons d ds ih =>
    have hcons : ∀ d, (d :: ds.filter fun d => !d.isAside).foldlM add o =
        (d :: ds).foldlM add o := by
      intro d
      simp only [List.foldlM_cons, ih]
    cases d with
    | aside a => exact ih o
    | schema s => exact hcons _
    | type n => exact hcons _
    | directive d => exact hcons _

end Outline

/-- **The outline of a document.**  A document has no outline exactly if one of its
definitions repeats what was said before it, and what the first such definition
repeats is what is reported.  Otherwise the outline lists each type once, in the order
in which the types are first spoken of, with all its nodes in document order, of which
only the first may be a definition; it has all directives in document order and the
only definition of the schema; and whatever else is defined does not matter. -/
theorem ofDefinitions_exact (ds : List Definition) :
    ((∃ o, Outline.ofDefinitions ds = .ok o) ↔ IsFresh ds) ∧
    (∀ r, Outline.ofDefinitions ds = .error r ↔
      ∃ before d after, ds = before ++ d :: after ∧ IsFresh before ∧
        repetition? before d = some r) ∧
    (∀ o, Outline.ofDefinitions ds = .ok o →
      o.types.keys.Nodup ∧ o.types.keys = (typeNames ds).eraseDups ∧
      (∀ name d, o.types.get? name = some d →
        d.primary :: d.additions = nodesOf name ds ∧ ∀ n ∈ d.additions, n.isExtension = true) ∧
      o.directives = directiveNodes ds ∧ o.schema.toList = schemaNodes ds) ∧
    Outline.ofDefinitions (ds.filter fun d => !d.isAside) = Outline.ofDefinitions ds := by
  have hsteps := Outline.heeds_repetition
  refine ⟨hsteps.exists_run_iff Outline.holds_empty, fun r => ?_, ?_,
    Outline.foldlM_filter_aside _ ds⟩
  · exact (hsteps.run_eq_error_iff Outline.holds_empty).trans firstObjection?_eq_some_iff
  · intro o h
    have ho : o.Holds ds := (Outline.holds_of_ofDefinitions h).2
    exact ⟨o.types.nodup_keys, ho.keys,
      fun name d hd => ⟨ho.nodes name d hd, ho.additions name d hd⟩, ho.directives, ho.schema⟩

/-- A type that is extended before and behind an operation and another type. -/
theorem outline_of_scattered_nodes :
    let a : Name := ⟨"A", by decide⟩
    let b : Name := ⟨"B", by decide⟩
    let first : TypeNode := ⟨.extension, a, [], .union [b]⟩
    let other : TypeNode := ⟨.definition none, b, [], .scalar⟩
    let second : TypeNode := ⟨.extension, a, [], .enum []⟩
    let ds : List Definition := [.type first, .aside .operation, .type other, .type second]
    let o : Outline := ⟨none, [], ⟨[("A", ⟨first, [second]⟩), ("B", ⟨other, []⟩)], by decide⟩⟩
    Outline.ofDefinitions ds = .ok o ∧ o.types.keys = (typeNames ds).eraseDups := by
  intro a b first other second ds o
  have h : Outline.ofDefinitions ds = .ok o := by rfl
  exact ⟨h, ((ofDefinitions_exact ds).2.2.1 o h).2.1⟩

end SchemaCatalog.Document

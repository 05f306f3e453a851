/-
# Resolving the operations of a schema

The operations of a schema are bound when all else is done: the definitions have been sorted,
and all types are known, wherever they are spoken of.  The first entry that cannot be bound is
reported, and that a definition comes twice is reported before any entry is looked at.
-/
import SchemaCatalog.Proofs.DefinitionOrder

namespace SchemaCatalog

open Document (Definition Outline RootOperation IsFresh repetition? schemaNodes nodesOf typeNames)

/-! ## Entries that can be bound -/

/-- All entries can be bound: no operation comes twice, and each type is one of some names. -/
structure AreBindable (names : List String) (es : List RootOperation) : Prop where
  operations : (es.map RootOperation.operation).Nodup
  types : ∀ e ∈ es, typeNameOf e ∈ names

/-- Why an entry cannot be bound behind others.  That its operation came before is noticed
first. -/
def IsRefused (names : List String) (before : List RootOperation) (e : RootOperation) :
    BindingError → Prop
  | .repeated o => o = e.operation ∧ e.operation ∈ before.map RootOperation.operation
  | .unresolved o name => o = e.operation ∧ name = typeNameOf e ∧
      e.operation ∉ before.map RootOperation.operation ∧ typeNameOf e ∉ names

/-- The bindings are those of the entries, of which each is for another operation. -/
structure Bindings.AreOf (b : Bindings) (es : List RootOperation) : Prop where
  operations : (es.map RootOperation.operation).Nodup
  bound : ∀ e ∈ es, b.get e.operation = some ⟨.operation, e.operation, typeNameOf e⟩
  unbound : ∀ o, o ∉ es.map RootOperation.operation → b.get o = none

section

variable {types : Table TypeEntry} {names : List String} {es before : List RootOperation}
  {e : RootOperation}

theorem clear_roots_iff_areBindable (hnames : ∀ n, types.contains n = true ↔ n ∈ names) :
    ClearAfter (bindingObjection? types) [] es ↔ AreBindable names es := by
  rw [clear_roots_iff]
  simp only [hnames]
  exact ⟨fun h => ⟨h.1, h.2⟩, fun h => ⟨h.operations, h.types⟩⟩

theorem bindingObjection?_eq_some_iff (hnames : ∀ n, types.contains n = true ↔ n ∈ names)
    {error : BindingError} :
    bindingObjection? types before e = some error ↔ IsRefused names before e error := by
  have hany : (before.any fun f => f.operation = e.operation) = true ↔
      e.operation ∈ before.map RootOperation.operation := by
    simp
  rw [bindingObjection?]
  simp only [hany, hnames]
  by_cases hop : e.operation ∈ before.map RootOperation.operation
  · rw [if_pos hop]
    cases error with
    | repeated o => simp [IsRefused, hop, eq_comm]
    | unresolved o name => simp [IsRefused, hop]
  · rw [if_neg hop]
    by_cases htype : typeNameOf e ∈ names
    · rw [if_pos htype]
      cases error <;> simp [IsRefused, hop, htype]
    · rw [if_neg htype]
      cases error with
      | repeated o => simp [IsRefused, hop]
      | unresolved o name => simp [IsRefused, hop, htype, eq_comm]

/-- **The first entry that cannot be bound.** -/
theorem ofRoots_eq_error_iff (hnames : ∀ n, types.contains n = true ↔ n ∈ names)
    {error : BindingError} :
    Bindings.ofRoots types es = .error error ↔
      ∃ before e after, es = before ++ e :: after ∧ AreBindable names before ∧
        IsRefused names before e error := by
  rw [Bindings.ofRoots, (Bindings.heeds_bindingObjection types).run_eq_error_iff
    Bindings.holds_empty, firstObjection?_eq_some_iff]
  simp only [List.nil_append, clear_roots_iff_areBindable hnames,
    bindingObjection?_eq_some_iff hnames]

/-- Entries are bound each to its type. -/
theorem areOf_of_ofRoots {b : Bindings} (h : Bindings.ofRoots types es = .ok b) : b.AreOf es := by
  obtain ⟨hclear, hb⟩ := (Bindings.heeds_bindingObjection types).of_run Bindings.holds_empty h
  have hnodup := (clear_roots_iff.1 hclear).1
  refine ⟨hnodup, ?_, ?_⟩
  · intro e he
    have hfind := (Bindings.find?_operation_iff hnodup e.operation e).2 ⟨he, rfl⟩
    rw [hb e.operation, List.nil_append, hfind]
    rfl
  · intro o ho
    have hfind : es.find? (fun e => e.operation = o) = none := by
      rw [List.find?_eq_none]
      intro e he hop
      exact ho (List.mem_map.2 ⟨e, he, of_decide_eq_true hop⟩)
    rw [hb o, List.nil_append, hfind]
    rfl

/-- Entries are refused exactly if one of them repeats an operation or names no type. -/
theorem exists_ofRoots_error_iff (hnames : ∀ n, types.contains n = true ↔ n ∈ names) :
    (∃ error, Bindings.ofRoots types es = .error error) ↔
      ∃ before e after, es = before ++ e :: after ∧
        (e.operation ∈ before.map RootOperation.operation ∨ typeNameOf e ∉ names) := by
  have hclear : (∃ error, Bindings.ofRoots types es = .error error) ↔
      ¬ClearAfter (bindingObjection? types) [] es := by
    rw [← (Bindings.heeds_bindingObjection types).exists_run_iff Bindings.holds_empty,
      ← Bindings.ofRoots]
    cases Bindings.ofRoots types es <;> simp
  rw [hclear, ClearAfter]
  simp only [not_forall, List.nil_append, bindingObjection?_eq_none_iff, hnames, not_and_or,
    not_not, exists_prop]

end

/-! ## Outlines and their catalogs -/

variable {ds : List Definition} {o : Outline}

/-- What keeps a document from being outlined is reported as it is. -/
theorem Catalog.ofDefinitions_eq_repetition_iff (ds : List Definition)
    (r : Document.Repetition) :
    Catalog.ofDefinitions ds = .error (.repetition r) ↔ Outline.ofDefinitions ds = .error r := by
  rw [Catalog.ofDefinitions]
  cases Outline.ofDefinitions ds with
  | error e => simp
  | ok o => cases h : Catalog.ofOutline o <;> simp [h]

/-- What stops an outline is the first definition that repeats something. -/
theorem outline_eq_error_iff (ds : List Definition) (r : Document.Repetition) :
    Outline.ofDefinitions ds = .error r ↔
      ∃ before d after, ds = before ++ d :: after ∧ IsFresh before ∧
        repetition? before d = some r :=
  (Outline.heeds_repetition.run_eq_error_iff Outline.holds_empty).trans
    firstObjection?_eq_some_iff

/-- Among the nodes of one type that has been outlined there is one definition at most. -/
theorem length_definitions_le (h : o.Holds ds) (name : String) :
    ((nodesOf name ds).filter fun n => !n.isExtension).length ≤ 1 := by
  cases hd : o.types.get? name with
  | none =>
    have hname : name ∉ typeNames ds := by
      rw [← h.get?_isSome_iff, hd]
      simp
    rw [Document.nodesOf_eq_nil hname]
    exact Nat.zero_le 1
  | some d =>
    have hadditions : d.additions.filter (fun n => !n.isExtension) = [] := by
      rw [List.filter_eq_nil_iff]
      intro n hn
      simp [h.additions name d hd n hn]
    rw [← h.nodes name d hd, Document.Declaration.nodes, List.filter_cons, hadditions]
    split
    · exact Nat.le_refl 1
    · exact Nat.zero_le 1

/-- A document that defines a type or the schema twice has no outline. -/
theorem exists_repetition_of_defined_twice
    (h : 1 < (schemaNodes ds).length ∨
      ∃ name, 1 < ((nodesOf name ds).filter fun n => !n.isExtension).length) :
    ∃ r, Outline.ofDefinitions ds = .error r := by
  cases ho : Outline.ofDefinitions ds with
  | error r => exact ⟨r, rfl⟩
  | ok o =>
    have hholds := (Outline.holds_of_ofDefinitions ho).2
    rcases h with h | ⟨name, h⟩
    · have hone : (schemaNodes ds).length ≤ 1 := by
        rw [← hholds.schema]
        cases o.schema <;> simp
      omega
    · have hone := length_definitions_le hholds name
      omega

/-- Without a schema nothing is bound. -/
theorem Catalog.ofDefinitions_of_no_schema (ho : Outline.ofDefinitions ds = .ok o)
    (hs : o.schema = none) :
    Catalog.ofDefinitions ds = .ok ⟨Catalog.typesOf o, o.directiveNames, none⟩ := by
  simp only [Catalog.ofDefinitions, ho, Catalog.ofOutline, hs]

/-- With a schema its entries are bound when the types are known. -/
theorem Catalog.ofDefinitions_of_schema (ho : Outline.ofDefinitions ds = .ok o)
    {s : Document.SchemaNode} (hs : o.schema = some s) :
    Catalog.ofDefinitions ds =
      match Bindings.ofRoots (Catalog.typesOf o) s.operations with
      | .ok b => .ok ⟨Catalog.typesOf o, o.directiveNames, some b⟩
      | .error e => .error (.binding e) := by
  simp only [Catalog.ofDefinitions, ho, Catalog.ofOutline, hs]
  cases Bindings.ofRoots (Catalog.typesOf o) s.operations <;> rfl

/-- **Resolving operations.**  Where a text can be read, a definition that repeats another is
reported first.  Without such a one the outline is complete: its types are all that are
spoken of, in front of the schema or behind it, by a definition or by an addition.  A text
without a schema is then catalogued and binds nothing.  With a schema it fails exactly if some
entry repeats an operation or names no type; the first such entry is reported, and as a
repetition if it is both.  Else every operation is bound as its one entry says, and those
without an entry are not. -/
theorem Catalog.ofText_resolves_operations {text : String} {ds : List Definition}
    (hread : Catalog.definitionsOf text = .ok ds) :
    (∀ r, Catalog.ofText text = .error (.repetition r) ↔
      ∃ before d after, ds = before ++ d :: after ∧ IsFresh before ∧
        repetition? before d = some r) ∧
    (1 < (schemaNodes ds).length ∨
        (∃ name, 1 < ((nodesOf name ds).filter fun n => !n.isExtension).length) →
      ∃ r, Catalog.ofText text = .error (.repetition r)) ∧
    ∀ o, Outline.ofDefinitions ds = .ok o →
      (Catalog.typesOf o).keys = (typeNames ds).eraseDups ∧
      o.schema.toList = schemaNodes ds ∧
      (o.schema = none → ∃ c, Catalog.ofText text = .ok c ∧ c.bindings = none) ∧
      ∀ s, o.schema = some s →
        ((∃ e, Catalog.ofText text = .error e) ↔
          ∃ before e after, s.operations = before ++ e :: after ∧
            (e.operation ∈ before.map RootOperation.operation ∨
              typeNameOf e ∉ (Catalog.typesOf o).keys)) ∧
        (∀ error, Catalog.ofText text = .error error ↔
          ∃ before e after cause, s.operations = before ++ e :: after ∧
            AreBindable (Catalog.typesOf o).keys before ∧
            IsRefused (Catalog.typesOf o).keys before e cause ∧ error = .binding cause) ∧
        ∀ c, Catalog.ofText text = .ok c →
          c.types = Catalog.typesOf o ∧ ∃ b, c.bindings = some b ∧ b.AreOf s.operations := by
  have htext : Catalog.ofText text = Catalog.ofDefinitions ds := by
    rw [Catalog.ofText, hread]
  rw [htext]
  refine ⟨?_, ?_, ?_⟩
  · intro r
    rw [Catalog.ofDefinitions_eq_repetition_iff, outline_eq_error_iff]
  · intro htwice
    obtain ⟨r, hr⟩ := exists_repetition_of_defined_twice htwice
    exact ⟨r, (Catalog.ofDefinitions_eq_repetition_iff ds r).2 hr⟩
  · intro o ho
    have hholds := (Outline.holds_of_ofDefinitions ho).2
    refine ⟨?_, hholds.schema, ?_, ?_⟩
    · rw [keys_typesOf, entriesOf, Table.keys_mapWithKey, hholds.keys]
    · intro hs
      exact ⟨_, Catalog.ofDefinitions_of_no_schema ho hs, rfl⟩
    · intro s hs
      have hnames : ∀ n, (Catalog.typesOf o).contains n = true ↔
          n ∈ (Catalog.typesOf o).keys := fun n => Table.contains_iff
      rw [Catalog.ofDefinitions_of_schema ho hs, ← exists_ofRoots_error_iff hnames]
      refine ⟨?_, ?_, ?_⟩
      · cases Bindings.ofRoots (Catalog.typesOf o) s.operations <;> simp
      · intro error
        constructor
        · intro h
          cases hb : Bindings.ofRoots (Catalog.typesOf o) s.operations with
          | ok b =>
            rw [hb] at h
            cases h
          | error cause =>
            rw [hb] at h
            cases h
            obtain ⟨before, e, after, hes, hbefore, he⟩ := (ofRoots_eq_error_iff hnames).1 hb
            exact ⟨before, e, after, cause, hes, hbefore, he, rfl⟩
        · rintro ⟨before, e, after, cause, hes, hbefore, he, rfl⟩
          rw [(ofRoots_eq_error_iff hnames).2 ⟨before, e, after, hes, hbefore, he⟩]
      · intro c hc
        cases hb : Bindings.ofRoots (Catalog.typesOf o) s.operations with
        | error e =>
          rw [hb] at hc
          cases hc
        | ok b =>
          rw [hb] at hc
          cases hc
          exact ⟨rfl, b, rfl, areOf_of_ofRoots hb⟩

/-- An operation that is bound to a type which is only added to, and that further on; the same
operation again, for a type that there is not; and a type that is defined twice. -/
theorem Catalog.ofText_resolves_operations_of_short_schemas :
    let a : Name := ⟨"A", by decide⟩
    let bound : Document.SchemaNode := ⟨none, [], [⟨.query, some a⟩]⟩
    (∃ c bs, Catalog.ofText "schema{query:A}extend union A=A" = .ok c ∧ c.bindings = some bs ∧
      bs.AreOf bound.operations) ∧
    Catalog.ofText "schema{query:A query:B}extend union A=A" =
      .error (.binding (.repeated .query)) ∧
    ∃ r, Catalog.ofText "schema{query:B}scalar A scalar A" = .error (.repetition r) := by
  intro a bound
  let b : Name := ⟨"B", by decide⟩
  let addition : Document.TypeNode := ⟨.extension, a, [], .union [a]⟩
  let scalar : Document.TypeNode := ⟨.definition none, a, [], .scalar⟩
  let again : Document.SchemaNode := ⟨none, [], [⟨.query, some a⟩, ⟨.query, some b⟩]⟩
  let types : Table Document.Declaration := ⟨[("A", ⟨addition, []⟩)], by decide⟩
  refine ⟨?_, ?_, ?_⟩
  · have hread : Catalog.definitionsOf "schema{query:A}extend union A=A" =
        .ok [.schema bound, .type addition] := by rfl
    have ho : Outline.ofDefinitions [.schema bound, .type addition] =
        .ok ⟨some bound, [], types⟩ := by rfl
    obtain ⟨-, -, hall⟩ := Catalog.ofText_resolves_operations hread
    obtain ⟨-, -, -, hschema⟩ := hall _ ho
    have hc : ∃ c, Catalog.ofText "schema{query:A}extend union A=A" = .ok c := ⟨_, rfl⟩
    obtain ⟨c, hc⟩ := hc
    obtain ⟨-, bs, hbs, hof⟩ := (hschema bound rfl).2.2 c hc
    exact ⟨c, bs, hc, hbs, hof⟩
  · have hread : Catalog.definitionsOf "schema{query:A query:B}extend union A=A" =
        .ok [.schema again, .type addition] := by rfl
    have ho : Outline.ofDefinitions [.schema again, .type addition] =
        .ok ⟨some again, [], types⟩ := by rfl
    obtain ⟨-, -, hall⟩ := Catalog.ofText_resolves_operations hread
    obtain ⟨-, -, -, hschema⟩ := hall _ ho
    refine ((hschema again rfl).2.1 _).2 ⟨[⟨.query, some a⟩], ⟨.query, some b⟩, [], _, rfl, ?_, ?_,
      rfl⟩
    · exact ⟨by decide, by decide⟩
    · exact ⟨rfl, by decide⟩
  · have hread : Catalog.definitionsOf "schema{query:B}scalar A scalar A" =
        .ok [.schema ⟨none, [], [⟨.query, some b⟩]⟩, .type scalar, .type scalar] := by rfl
    exact (Catalog.ofText_resolves_operations hread).2.1 (Or.inr ⟨"A", by decide⟩)

end SchemaCatalog

/-
# What operations are bound to

The entries of a schema definition are gone through one after the other.  An entry is
refused for an operation that an entry before it binds, or for a type that there is not.
-/
import Mathlib.Data.List.Induction
import Mathlib.Data.List.Nodup
import SchemaCatalog.Catalog.Operations
import SchemaCatalog.Proofs.Objections

namespace SchemaCatalog

open Document (RootOperation)

/-- What is objected to an entry that comes behind others. -/
def bindingObjection? (types : Table TypeEntry) (before : List RootOperation)
    (e : RootOperation) : Option BindingError :=
  if before.any fun f => f.operation = e.operation then some (.repeated e.operation)
  else if types.contains (typeNameOf e) then none
  else some (.unresolved e.operation (typeNameOf e))

/-- The binding that an entry makes. -/
def bindingOf (e : RootOperation) : Binding := ⟨.operation, e.operation, typeNameOf e⟩

/-- An operation is bound by the first entry for it. -/
def Bindings.Holds (b : Bindings) (es : List RootOperation) : Prop :=
  ∀ o, b.get o = (es.find? fun e => e.operation = o).map bindingOf

theorem Bindings.holds_empty : Bindings.empty.Holds [] := fun o => get_empty o

/-- An operation is bound if there is an entry for it. -/
theorem Bindings.Holds.isSome_get {b : Bindings} {es : List RootOperation} (h : b.Holds es)
    (o : Operation) : (b.get o).isSome = es.any fun e => e.operation = o := by
  rw [h o, Option.isSome_map, Bool.eq_iff_iff, List.find?_isSome, List.any_eq_true]

/-- **One step.**  An entry is refused for what is objected to it, and else bound. -/
theorem Bindings.heeds_bindingObjection (types : Table TypeEntry) :
    Heeds (addRoot types) (bindingObjection? types) Bindings.Holds := by
  refine ⟨fun {b before e error} hb he => ?_, fun {b before e} hb he => ?_⟩
  · rw [bindingObjection?] at he
    rw [addRoot, hb.isSome_get]
    split at he
    · next h =>
      cases he
      rw [if_pos h]
    · next h =>
      rw [if_neg h]
      split at he
      · cases he
      · next hc =>
        cases he
        rw [if_neg hc]
  · rw [bindingObjection?] at he
    rw [addRoot, hb.isSome_get]
    split at he
    · cases he
    · next h =>
      split at he
      · next hc =>
        rw [if_neg h, if_pos hc]
        refine ⟨_, rfl, fun o => ?_⟩
        rw [get_bind, hb o, List.find?_append]
        -- no entry before it is for this operation, so this one is the first for it
        by_cases ho : o = e.operation
        · subst ho
          have hnone : before.find? (fun f => f.operation = e.operation) = none := by
            rw [List.find?_eq_none]
            intro f hf hop
            exact h (List.any_eq_true.2 ⟨f, hf, hop⟩)
          rw [if_pos rfl, hnone]
          simp [bindingOf]
        · rw [if_neg ho]
          simp [Ne.symm ho]
      · cases he

/-- Nothing is objected to an entry for a new operation whose type is there. -/
theorem bindingObjection?_eq_none_iff {types : Table TypeEntry} {before : List RootOperation}
    {e : RootOperation} :
    bindingObjection? types before e = none ↔
      e.operation ∉ before.map RootOperation.operation ∧
        types.contains (typeNameOf e) = true := by
  have hany : (before.any fun f => f.operation = e.operation) = true ↔
      e.operation ∈ before.map RootOperation.operation := by
    simp
  rw [bindingObjection?, ← hany]
  split
  · next h => simp [h]
  · next h =>
    split
    · next hc => simp [h, hc]
    · next hc => simp [hc]

/-- Nothing is objected to entries for different operations whose types are all there. -/
theorem clear_roots_iff {types : Table TypeEntry} {es : List RootOperation} :
    ClearAfter (bindingObjection? types) [] es ↔
      (es.map RootOperation.operation).Nodup ∧
        ∀ e ∈ es, types.contains (typeNameOf e) = true := by
  induction es using List.reverseRecOn with
  | nil => simp [clearAfter_nil]
  | append_singleton es e ih =>
    have hnodup : ((es ++ [e]).map RootOperation.operation).Nodup ↔
        (es.map RootOperation.operation).Nodup ∧
          e.operation ∉ es.map RootOperation.operation := by
      rw [List.map_append, List.map_singleton, ← List.concat_eq_append, List.nodup_concat, and_comm]
    rw [clearAfter_append, ih, clearAfter_cons, List.nil_append, bindingObjection?_eq_none_iff,
      hnodup, List.forall_mem_append, List.forall_mem_singleton]
    constructor
    · rintro ⟨⟨hdifferent, hall⟩, ⟨hnew, he⟩, -⟩
      exact ⟨⟨hdifferent, hnew⟩, hall, he⟩
    · rintro ⟨⟨hdifferent, hnew⟩, hall, he⟩
      exact ⟨⟨hdifferent, hall⟩, ⟨hnew, he⟩, clearAfter_nil _ _⟩

/-- Entries for different operations are bound exactly if the types are there. -/
theorem exists_ofRoots_iff {types : Table TypeEntry} {es : List RootOperation}
    (h : (es.map RootOperation.operation).Nodup) :
    (∃ b, Bindings.ofRoots types es = .ok b) ↔
      ∀ e ∈ es, types.contains (typeNameOf e) = true := by
  rw [Bindings.ofRoots,
    (Bindings.heeds_bindingObjection types).exists_run_iff Bindings.holds_empty, clear_roots_iff]
  exact and_iff_right h

/-- Among entries for different operations, the one for an operation is found. -/
theorem Bindings.find?_operation_iff {es : List RootOperation}
    (h : (es.map RootOperation.operation).Nodup) (o : Operation) (e : RootOperation) :
    es.find? (fun e => e.operation = o) = some e ↔ e ∈ es ∧ e.operation = o := by
  constructor
  · intro he
    exact ⟨List.mem_of_find?_eq_some he, by simpa using List.find?_some he⟩
  · rintro ⟨he, rfl⟩
    have hsome : (es.find? fun f => f.operation = e.operation).isSome = true :=
      List.find?_isSome.2 ⟨e, he, decide_eq_true rfl⟩
    obtain ⟨f, hf⟩ := Option.isSome_iff_exists.1 hsome
    have hop : f.operation = e.operation := by simpa using List.find?_some hf
    rw [hf, List.inj_on_of_nodup_map h (List.mem_of_find?_eq_some hf) he hop]

end SchemaCatalog

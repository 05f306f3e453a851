/-
# Where the names of a document come from

The grammar makes up no names: each name that a definition gives to anything is that of a
token which was heard when the definition was read.  So it is a name of the text, also if the
text was repaired before, since a repair only puts in separators.
-/
import SchemaCatalog.Proofs.Repairs
import SchemaCatalog.Proofs.RuleResults

namespace SchemaCatalog

open Lexeme (Kind)

/-! ## Names in definitions -/

namespace Document

open Rule

/-- The name of an argument or of a field of an input object, and that of its type. -/
def InputValue.names (v : InputValue) : List Name := [v.name, v.type.innermost]

/-- The names in a field: its own, that of its type, and those of its arguments. -/
def Field.names (f : Field) : List Name :=
  f.name :: f.type.innermost :: f.arguments.flatMap InputValue.names

/-- The names in what a node says of its type. -/
def Content.names : Content → List Name
  | .enum vs => vs.map EnumValue.name
  | .inputObject fs => fs.flatMap InputValue.names
  | .interface is fs | .object is fs => is ++ fs.flatMap Field.names
  | .scalar => []
  | .union ms => ms

/-- The names that a definition gives to what it defines and to what it refers to. -/
def Definition.names : Definition → List Name
  | .schema s => s.operations.filterMap RootOperation.typeName
  | .type t => t.name :: t.content.names
  | .directive d => [d.name]
  | .aside _ => []

variable {heard : Token → Prop}

/-- All of some names are heard. -/
def AreHeard (heard : Token → Prop) (ns : List Name) : Prop := ∀ n ∈ ns, heard (.name n)

theorem areHeard_nil : AreHeard heard [] := fun _ hn => absurd hn List.not_mem_nil

theorem areHeard_cons {n : Name} {ns : List Name} :
    AreHeard heard (n :: ns) ↔ heard (.name n) ∧ AreHeard heard ns := List.forall_mem_cons

/-- The names of two lists are heard if those of each are. -/
theorem areHeard_append {ns ms : List Name} :
    AreHeard heard (ns ++ ms) ↔ AreHeard heard ns ∧ AreHeard heard ms := List.forall_mem_append

/-- The names that items give are heard if those of each item are. -/
theorem areHeard_flatMap {α : Type} {f : α → List Name} {xs : List α} :
    AreHeard heard (xs.flatMap f) ↔ ∀ x ∈ xs, AreHeard heard (f x) := List.forall_mem_flatMap

/-! ## References and members -/

/-- A name that is read is heard. -/
theorem ensuresFrom_name : name.EnsuresFrom heard fun n => heard (.name n) :=
  ensuresFrom_nameOr _

/-- The name in a reference is heard if the one in its brackets is. -/
theorem ensuresFrom_typeRefWith {element : Production TypeRef}
    (h : element.EnsuresFrom heard fun t => heard (.name t.innermost)) :
    (typeRefWith element).EnsuresFrom heard fun t => heard (.name t.innermost) := by
  refine ensuresFrom_current fun t ht => ?_
  split
  · refine EnsuresFrom.then _ fun _ => EnsuresFrom.then _ fun b => ?_
    exact ensuresFrom_pure (ht _ rfl)
  · refine EnsuresFrom.then _ fun _ => h.bind fun t ht => ?_
    exact EnsuresFrom.then _ fun _ => EnsuresFrom.then _ fun b => ensuresFrom_pure ht
  · exact ensuresFrom_fail _

/-- The name in a reference is heard, however deep it stands. -/
theorem ensuresFrom_typeRef (levels : Nat) :
    (typeRef levels).EnsuresFrom heard fun t => heard (.name t.innermost) := by
  induction levels with
  | zero => exact ensuresFrom_typeRefWith (ensuresFrom_fail _)
  | succ levels ih => exact ensuresFrom_typeRefWith ih

theorem ensuresFrom_typeOr (message : String) :
    (typeOr message).EnsuresFrom heard fun t => heard (.name t.innermost) := by
  refine EnsuresFrom.then _ fun t => ?_
  split
  · exact ensuresFrom_typeRef _
  · exact ensuresFrom_fail _

/-- What is between two marks, or nothing. -/
theorem ensuresFrom_members {α : Type} {item : Production α} {P : α → Prop}
    (h : item.EnsuresFrom heard P) (fuel : Nat) (opening closing : Mark) (label message : String) :
    (members fuel opening closing label message item).EnsuresFrom heard fun xs =>
      ∀ x ∈ xs.getD [], P x := by
  refine EnsuresFrom.then _ fun b => ?_
  split
  · refine EnsuresFrom.then _ fun t => ?_
    split
    · refine (ensuresFrom_many h _ fuel).bind fun xs hxs => ?_
      exact EnsuresFrom.then _ fun _ => ensuresFrom_pure hxs
    · exact ensuresFrom_fail _
  · exact ensuresFrom_pure fun _ hx => absurd hx List.not_mem_nil

/-- An argument has a name that was heard, and a type whose name was; its default gives none. -/
theorem ensuresFrom_inputValue (fuel : Nat) :
    (inputValue fuel).EnsuresFrom heard fun v => AreHeard heard v.names := by
  refine EnsuresFrom.then _ fun d => ensuresFrom_name.bind fun n hn => ?_
  refine EnsuresFrom.then _ fun _ => (ensuresFrom_typeOr _).bind fun t ht => ?_
  refine EnsuresFrom.then _ fun v => EnsuresFrom.then _ fun ds => ensuresFrom_pure ?_
  exact areHeard_cons.2 ⟨hn, areHeard_cons.2 ⟨ht, areHeard_nil⟩⟩

/-- The names of arguments are heard. -/
theorem ensuresFrom_argumentsDefinition (fuel : Nat) :
    (argumentsDefinition fuel).EnsuresFrom heard fun vs => ∀ v ∈ vs, AreHeard heard v.names :=
  (ensuresFrom_members (ensuresFrom_inputValue fuel) _ _ _ _ _).bind fun _ hvs =>
    ensuresFrom_pure hvs

/-- A field has a name that was heard, and so have its type and its arguments. -/
theorem ensuresFrom_field (fuel : Nat) :
    (field fuel).EnsuresFrom heard fun f => AreHeard heard f.names := by
  refine EnsuresFrom.then _ fun d => ensuresFrom_name.bind fun n hn => ?_
  refine (ensuresFrom_argumentsDefinition fuel).bind fun args hargs => ?_
  refine EnsuresFrom.then _ fun _ => (ensuresFrom_typeOr _).bind fun t ht => ?_
  refine EnsuresFrom.then _ fun ds => ensuresFrom_pure ?_
  exact areHeard_cons.2 ⟨hn, areHeard_cons.2 ⟨ht, areHeard_flatMap.2 hargs⟩⟩

/-- A value of an enum has a name that was heard. -/
theorem ensuresFrom_enumValue (fuel : Nat) :
    (enumValue fuel).EnsuresFrom heard fun v => heard (.name v.name) := by
  refine EnsuresFrom.then _ fun d => ensuresFrom_current fun t ht => ?_
  split
  · split
    · exact ensuresFrom_fail _
    · exact EnsuresFrom.then _ fun _ => EnsuresFrom.then _ fun ds => ensuresFrom_pure (ht _ rfl)
  · exact ensuresFrom_fail _

/-- The interfaces of a type are heard, with or without a separator in front of the first. -/
theorem ensuresFrom_implements (fuel : Nat) :
    (implements fuel).EnsuresFrom heard fun ns => AreHeard heard (ns.getD []) := by
  refine EnsuresFrom.then _ fun b => ?_
  split
  · refine EnsuresFrom.then _ fun _ => ?_
    exact (ensuresFrom_separated (ensuresFrom_nameOr _) _ fuel).bind fun ns hns =>
      ensuresFrom_pure hns
  · exact ensuresFrom_pure areHeard_nil

/-- The members of a union are heard. -/
theorem ensuresFrom_unionMembers (fuel : Nat) :
    (unionMembers fuel).EnsuresFrom heard fun ns => AreHeard heard (ns.getD []) := by
  refine EnsuresFrom.then _ fun b => ?_
  split
  · refine EnsuresFrom.then _ fun _ => ?_
    exact (ensuresFrom_separated (ensuresFrom_nameOr _) _ fuel).bind fun ns hns =>
      ensuresFrom_pure hns
  · exact ensuresFrom_pure areHeard_nil

/-! ## Definitions -/

/-- Objects and interfaces are read alike, so that `make` is all that tells them apart. -/
theorem ensuresFrom_fieldsBody (fuel : Nat) {make : List Name → List Field → Content}
    (hmake : ∀ is fs, (make is fs).names = is ++ fs.flatMap Field.names) :
    (fieldsBody fuel make).EnsuresFrom heard fun b => AreHeard heard b.content.names := by
  refine (ensuresFrom_implements fuel).bind fun is his => EnsuresFrom.then _ fun ds => ?_
  refine (ensuresFrom_members (ensuresFrom_field fuel) _ _ _ _ _).bind fun fs hfs => ?_
  refine ensuresFrom_pure ?_
  show AreHeard heard (make (is.getD []) (fs.getD [])).names
  rw [hmake]
  exact areHeard_append.2 ⟨his, areHeard_flatMap.2 hfs⟩

/-- What a node says of its type has names that were heard, whatever the shape. -/
theorem ensuresFrom_body (fuel : Nat) (shape : Shape) :
    (body fuel shape).EnsuresFrom heard fun b => AreHeard heard b.content.names := by
  cases shape with
  | object => exact ensuresFrom_fieldsBody fuel fun _ _ => rfl
  | interface => exact ensuresFrom_fieldsBody fuel fun _ _ => rfl
  | scalar => exact EnsuresFrom.then _ fun ds => ensuresFrom_pure areHeard_nil
  | union =>
    refine EnsuresFrom.then _ fun ds => (ensuresFrom_unionMembers fuel).bind fun ms hms => ?_
    exact ensuresFrom_pure hms
  | enum =>
    refine EnsuresFrom.then _ fun ds => ?_
    refine (ensuresFrom_members (ensuresFrom_enumValue fuel) _ _ _ _ _).bind fun vs hvs => ?_
    exact ensuresFrom_pure (List.forall_mem_map.2 hvs)
  | inputObject =>
    refine EnsuresFrom.then _ fun ds => ?_
    refine (ensuresFrom_members (ensuresFrom_inputValue fuel) _ _ _ _ _).bind fun fs hfs => ?_
    exact ensuresFrom_pure (areHeard_flatMap.2 hfs)

/-- What is read as a definition has only names that were heard. -/
abbrev HearsNames (heard : Token → Prop) (r : Production Definition) : Prop :=
  r.EnsuresFrom heard fun d => AreHeard heard d.names

/-- The name of a type is heard before its body. -/
theorem hearsNames_typeDefinition (fuel : Nat) (shape : Shape) :
    HearsNames heard (typeDefinition fuel shape) := by
  refine EnsuresFrom.then _ fun d => EnsuresFrom.then _ fun _ => ?_
  refine (ensuresFrom_nameOr _).bind fun n hn => (ensuresFrom_body fuel shape).bind fun b hb => ?_
  exact ensuresFrom_pure (areHeard_cons.2 ⟨hn, hb⟩)

/-- An addition that adds nothing is refused; else its names are heard. -/
theorem hearsNames_typeExtension (fuel : Nat) (shape : Shape) :
    HearsNames heard (typeExtension fuel shape) := by
  refine EnsuresFrom.then _ fun _ => EnsuresFrom.then _ fun _ => ?_
  refine ensuresFrom_name.bind fun n hn => (ensuresFrom_body fuel shape).bind fun b hb => ?_
  split
  · exact ensuresFrom_pure (areHeard_cons.2 ⟨hn, hb⟩)
  · exact ensuresFrom_fail _

/-- The type of an entry of a schema is heard, unless its name is missing. -/
theorem ensuresFrom_rootOperation :
    rootOperation.EnsuresFrom heard fun e => ∀ n, e.typeName = some n → heard (.name n) := by
  refine EnsuresFrom.then _ fun t => ?_
  split
  · split
    · refine EnsuresFrom.then _ fun _ => EnsuresFrom.then _ fun _ => ?_
      refine ensuresFrom_current fun t ht => ?_
      split
      · refine EnsuresFrom.then _ fun _ => ensuresFrom_pure ?_
        rintro n ⟨⟩
        exact ht _ rfl
      · refine ensuresFrom_pure ?_
        rintro n ⟨⟩
    · exact ensuresFrom_fail _
  · exact ensuresFrom_fail _

/-- The types that operations start from are heard. -/
theorem hearsNames_schemaDefinition (fuel : Nat) :
    HearsNames heard (schemaDefinition fuel) := by
  refine EnsuresFrom.then _ fun d => EnsuresFrom.then _ fun _ => EnsuresFrom.then _ fun ds => ?_
  refine EnsuresFrom.then _ fun b => ?_
  split
  · refine (ensuresFrom_many ensuresFrom_rootOperation _ fuel).bind fun os hos => ?_
    split
    · exact ensuresFrom_fail _
    · refine EnsuresFrom.then _ fun _ => ensuresFrom_pure fun n hn => ?_
      obtain ⟨e, he, hen⟩ := List.mem_filterMap.1 hn
      exact hos e he n hen
  · exact ensuresFrom_pure areHeard_nil

/-- An addition to the schema gives no names. -/
theorem hearsNames_schemaExtension (fuel : Nat) : HearsNames heard (schemaExtension fuel) := by
  refine EnsuresFrom.then _ fun _ => EnsuresFrom.then _ fun _ => EnsuresFrom.then _ fun ds => ?_
  have hend : ∀ os : List RootOperation, HearsNames heard
      (if (ds.isEmpty && os.isEmpty) = true then
        fail "expected directives or Root Operation Type Definition"
      else pure (.aside .schemaExtension)) := by
    intro os
    split
    · exact ensuresFrom_fail _
    · exact ensuresFrom_pure areHeard_nil
  refine EnsuresFrom.then _ fun b => ?_
  split
  · exact EnsuresFrom.then _ fun os => EnsuresFrom.then _ fun _ => EnsuresFrom.then _ hend
  · exact EnsuresFrom.then _ hend

/-- The name of a directive is heard; its arguments and places give none. -/
theorem hearsNames_directiveDefinition (fuel : Nat) :
    HearsNames heard (directiveDefinition fuel) := by
  refine EnsuresFrom.then _ fun d => EnsuresFrom.then _ fun _ => EnsuresFrom.then _ fun _ => ?_
  refine ensuresFrom_name.bind fun n hn => EnsuresFrom.then _ fun args => ?_
  refine EnsuresFrom.then _ fun again => EnsuresFrom.then _ fun b => ?_
  split
  · refine EnsuresFrom.then _ fun t => ?_
    split
    · refine EnsuresFrom.then _ fun _ => EnsuresFrom.then _ fun places => ?_
      exact ensuresFrom_pure (areHeard_cons.2 ⟨hn, areHeard_nil⟩)
    · exact ensuresFrom_fail _
  · exact ensuresFrom_fail _

/-- An operation gives no names. -/
theorem hearsNames_operationDefinition (fuel : Nat) :
    HearsNames heard (operationDefinition fuel) := by
  refine EnsuresFrom.then _ fun t => ?_
  split
  · exact EnsuresFrom.then _ fun _ => ensuresFrom_pure areHeard_nil
  · have hend : HearsNames heard (do
        variableDefinitions fuel
        let _ ← directives fuel false maxLevels
        selectionsOr (selectionSet fuel maxLevels) "expected a Selection Set"
        pure (.aside .operation)) :=
      EnsuresFrom.then _ fun _ => EnsuresFrom.then _ fun _ => EnsuresFrom.then _ fun _ =>
        ensuresFrom_pure areHeard_nil
    refine EnsuresFrom.then _ fun _ => EnsuresFrom.then _ fun t => ?_
    split
    · exact EnsuresFrom.then _ fun _ => hend
    · exact hend
  · exact ensuresFrom_fail _

/-- A fragment of an operation gives no names. -/
theorem hearsNames_fragmentDefinition (fuel : Nat) :
    HearsNames heard (fragmentDefinition fuel) := by
  refine EnsuresFrom.then _ fun _ => EnsuresFrom.then _ fun _ => EnsuresFrom.then _ fun _ => ?_
  exact EnsuresFrom.then _ fun _ => EnsuresFrom.then _ fun _ => ensuresFrom_pure areHeard_nil

/-- The word behind `extend` decides what is read, and each is heard. -/
theorem hearsNames_extensionDefinition (fuel : Nat) :
    HearsNames heard (extensionDefinition fuel) := by
  refine EnsuresFrom.then _ fun t => ?_
  split
  · split
    · exact hearsNames_schemaExtension fuel
    · split
      · exact hearsNames_typeExtension fuel _
      · exact ensuresFrom_fail _
  · exact ensuresFrom_fail _

/-- The word that opens a definition decides what is read, and each is heard. -/
theorem hearsNames_definitionFor (fuel : Nat) (opening : Option Token) :
    HearsNames heard (definitionFor fuel opening) := by
  unfold definitionFor
  split
  · exact hearsNames_operationDefinition fuel
  · split
    · exact hearsNames_directiveDefinition fuel
    split
    · exact hearsNames_extensionDefinition fuel
    split
    · exact hearsNames_fragmentDefinition fuel
    split
    · exact hearsNames_schemaDefinition fuel
    split
    · exact hearsNames_operationDefinition fuel
    split
    · exact hearsNames_typeDefinition fuel _
    · exact ensuresFrom_fail _
  · exact ensuresFrom_fail _

/-- **Definitions.**  A definition that is read has only names that were heard. -/
theorem hearsNames_definition (fuel : Nat) : HearsNames heard (definition fuel) := by
  refine EnsuresFrom.then _ fun t => ?_
  split
  · exact EnsuresFrom.then _ fun t => hearsNames_definitionFor fuel t
  · exact hearsNames_definitionFor fuel _
  · exact hearsNames_definitionFor fuel _
  · exact ensuresFrom_fail _

/-- A document has only names that were heard. -/
theorem ensuresFrom_document (fuel : Nat) :
    (document fuel).EnsuresFrom heard fun ds => ∀ d ∈ ds, AreHeard heard d.names := by
  refine EnsuresFrom.then _ fun t => ?_
  split
  · exact ensuresFrom_many (hearsNames_definition fuel) _ fuel
  · exact ensuresFrom_fail _

/-! ## Names in texts -/

open Implements in
/-- A repair adds no names. -/
theorem name_mem_of_repairKinds {p : Passed} {ks : List Kind} {n : Name}
    (h : n.lexeme ∈ repairKinds p ks) : n.lexeme ∈ ks := by
  induction ks generalizing p with
  | nil => cases h
  | cons k ks ih =>
    cases k with
    | token t =>
      rw [repairKinds] at h
      split at h
      · rcases List.mem_cons.1 h with h | h
        · cases h
        · rcases List.mem_cons.1 h with h | h
          · exact h ▸ List.mem_cons_self
          · exact List.mem_cons_of_mem _ (ih h)
      · rcases List.mem_cons.1 h with h | h
        · exact h ▸ List.mem_cons_self
        · exact List.mem_cons_of_mem _ (ih h)
    | blank | comma | flaw | stray =>
      rcases List.mem_cons.1 h with h | h
      · cases h
      · exact List.mem_cons_of_mem _ (ih h)

/-- A name of a text is the text of one of its lexemes. -/
theorem mem_scan_of_name {cs : List Char} {n : Name} (h : n.lexeme ∈ kindsIn cs) :
    ⟨n.text.toList, n.lexeme⟩ ∈ scan cs := by
  obtain ⟨⟨text, kind⟩, hl, rfl⟩ := List.mem_map.1 (List.mem_of_mem_filter h)
  obtain ⟨st, hst⟩ := (scanner.bounded_scan cs).exists_finish hl
  have hfinish : ScanState.finish st text = n.lexeme := hst.symm
  rwa [toList_of_finish hfinish]

/-- **Names of definitions.**  Each is a name of the text that the definitions are read from,
be it repaired before. -/
theorem names_of_definitionsOf {text : String} {ds : List Definition}
    (h : Catalog.definitionsOf text = .ok ds) {d : Definition} (hd : d ∈ ds) {n : Name}
    (hn : n ∈ d.names) : n.lexeme ∈ kindsIn text.toList := by
  let ks := Implements.repairKinds .nothing (kindsIn text.toList)
  have hfeed : (document (tokenCount ks)).feed ks = some (ds, []) :=
    (definitionsOf_eq_ok_iff text ds).1 h
  have hheard : (document (tokenCount ks)).EnsuresFrom (fun t => Kind.token t ∈ ks) _ :=
    ensuresFrom_document (tokenCount ks)
  exact name_mem_of_repairKinds (hheard.feed (fun t ht => ht) hfeed d hd n hn)

end Document

end SchemaCatalog

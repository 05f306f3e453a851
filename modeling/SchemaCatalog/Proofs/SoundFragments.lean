/-
# What a fragment holds that has been read

The grammar of fragments bounds how deep values and references nest, names only places where
a directive may be applied, and refuses an addition that adds nothing.  Definitions keep this
when they are merged, since each part of a merged definition comes from one that was read.
-/
import SchemaCatalog.Proofs.Fragments
import SchemaCatalog.Proofs.MemberUnions
import SchemaCatalog.Proofs.RuleResults

namespace SchemaCatalog

namespace Rule

variable {ε α β : Type} {P : α → Prop} {Q : β → Prop} {r : Rule ε α}

/-- Whatever a rule reads, its result satisfies a condition. -/
def Ensures (P : α → Prop) : Rule ε α → Prop
  | done a => P a
  | fail _ => True
  | look go | lookPast go => ∀ t, (go t).Ensures P
  | take go => go.Ensures P

/-- What a rule ensures holds of each result that it has. -/
theorem Ensures.run (h : r.Ensures P) {ls rest : List Lexeme} {a : α}
    (hrun : r.run ls = .ok (a, rest)) : P a := by
  induction r generalizing ls with
  | done b =>
    cases hrun
    exact h
  | fail m => cases hrun
  | look go ih => exact ih _ (h _) hrun
  | lookPast go ih => exact ih _ (h _) hrun
  | take go ih =>
    rw [Rule.run] at hrun
    cases hsettle : (settle ls.tail : Except (Failure ε) (List Lexeme)) with
    | ok ahead =>
      rw [hsettle] at hrun
      exact ih h hrun
    | error e =>
      rw [hsettle] at hrun
      cases hrun

/-- Nothing is asked of the tokens that are read. -/
theorem ensures_iff : r.Ensures P ↔ r.EnsuresFrom (fun _ => True) P := by
  induction r with
  | done a => exact Iff.rfl
  | fail m => exact Iff.rfl
  | look go ih | lookPast go ih =>
    exact ⟨fun h t _ => (ih t).1 (h t), fun h t => (ih t).2 (h t fun _ _ => trivial)⟩
  | take go ih => exact ih

theorem Ensures.mono {P' : α → Prop} (h : r.Ensures P) (hP : ∀ a, P a → P' a) :
    r.Ensures P' :=
  ensures_iff.2 ((ensures_iff.1 h).mono hP)

/-- One rule after the other. -/
theorem Ensures.bind (h : r.Ensures P) {f : α → Rule ε β} (hf : ∀ a, P a → (f a).Ensures Q) :
    (r >>= f).Ensures Q :=
  ensures_iff.2 ((ensures_iff.1 h).bind fun a ha => ensures_iff.1 (hf a ha))

/-- What is known of the result may not matter. -/
theorem Ensures.then (r : Rule ε α) {f : α → Rule ε β} (hf : ∀ a, (f a).Ensures Q) :
    (r >>= f).Ensures Q :=
  ensures_iff.2 (EnsuresFrom.then r fun a => ensures_iff.1 (hf a))

theorem ensures_pure {a : α} (h : P a) : (pure a : Rule ε α).Ensures P := h

theorem ensures_fail (m : ε) : (fail m : Rule ε α).Ensures P := trivial

/-- Each of some items in a row. -/
theorem ensures_many (h : r.Ensures P) (starts : Option Token → Bool) (fuel : Nat) :
    (many fuel starts r).Ensures fun xs => ∀ x ∈ xs, P x :=
  ensures_iff.2 (ensuresFrom_many (ensures_iff.1 h) starts fuel)

/-- What is ensured of an item is ensured of all items between marks. -/
theorem ensures_separated (h : r.Ensures P) (m : Mark) (fuel : Nat) :
    (separated fuel m r).Ensures fun xs => ∀ x ∈ xs, P x :=
  ensures_iff.2 (ensuresFrom_separated (ensures_iff.1 h) m fuel)

end Rule

namespace Fragment

open Rule

/-! ## What a definition is made of -/

mutual

/-- How deep the parts of a value lie in it. -/
def Value.depth : Value → Nat
  | .variable _ | .int _ | .float _ | .string _ | .word _ => 0
  | .list vs => Value.itemsDepth vs
  | .object fs => Value.fieldsDepth fs

/-- How deep the items of a list, with their parts, lie in it. -/
def Value.itemsDepth : List Value → Nat
  | [] => 0
  | v :: vs => max (v.depth + 1) (Value.itemsDepth vs)

/-- How deep the fields of an object, with their parts, lie in it. -/
def Value.fieldsDepth : List (Name × Value) → Nat
  | [] => 0
  | (_, v) :: fs => max (v.depth + 1) (Value.fieldsDepth fs)

end

/-- A list nests one deeper than the deepest of its items. -/
theorem itemsDepth_le_iff {vs : List Value} {n : Nat} :
    Value.itemsDepth vs ≤ n ↔ ∀ v ∈ vs, v.depth + 1 ≤ n := by
  induction vs with
  | nil => simp [Value.itemsDepth]
  | cons v vs ih => rw [Value.itemsDepth, Nat.max_le, ih, List.forall_mem_cons]

/-- An object nests one deeper than the deepest of its fields. -/
theorem fieldsDepth_le_iff {fs : List (Name × Value)} {n : Nat} :
    Value.fieldsDepth fs ≤ n ↔ ∀ f ∈ fs, f.2.depth + 1 ≤ n := by
  induction fs with
  | nil => simp [Value.fieldsDepth]
  | cons f fs ih => rw [Value.fieldsDepth, Nat.max_le, ih, List.forall_mem_cons]

/-- The values that are given to the arguments of some directives. -/
def givenValues (ds : List Directive) : List Value :=
  ds.flatMap fun d => d.arguments.map Prod.snd

/-- The values in an argument of a definition, or in a field of an input object. -/
def InputValue.literals (v : InputValue) : List Value :=
  v.default.toList ++ givenValues v.directives

/-- The values in a field. -/
def Field.literals (f : Field) : List Value :=
  f.arguments.flatMap InputValue.literals ++ givenValues f.directives

/-- The values in a content. -/
def Content.literals : Content → List Value
  | .enum vs => vs.flatMap fun v => givenValues v.directives
  | .inputObject fs => fs.flatMap InputValue.literals
  | .interface _ fs | .object _ fs => fs.flatMap Field.literals
  | .scalar | .union _ => []

/-- The values in a definition. -/
def Definition.literals : Definition → List Value
  | .schema s => givenValues s.directives
  | .type t => givenValues t.directives ++ t.content.literals
  | .extension e => givenValues e.directives ++ e.content.literals
  | .directive d => d.arguments.flatMap InputValue.literals

/-- The references to types in a field. -/
def Field.references (f : Field) : List TypeRef :=
  f.type :: f.arguments.map InputValue.type

/-- The references to types in a content. -/
def Content.references : Content → List TypeRef
  | .inputObject fs => fs.map InputValue.type
  | .interface _ fs | .object _ fs => fs.flatMap Field.references
  | .enum _ | .scalar | .union _ => []

/-- The references to types in a definition. -/
def Definition.references : Definition → List TypeRef
  | .schema _ => []
  | .type t => t.content.references
  | .extension e => e.content.references
  | .directive d => d.arguments.map InputValue.type

/-- What each definition that is read of a fragment satisfies. -/
structure Definition.IsSound (d : Definition) : Prop where
  literals : ∀ v ∈ d.literals, v.depth ≤ maxLevels
  references : ∀ t ∈ d.references, t.depth ≤ maxLevels
  places : ∀ e, d = .directive e → ∀ n ∈ e.locations, isDirectiveLocation n.text = true
  adds : ∀ e, d = .extension e → addsAnything e.directives e.content = true

/-! ## References and values -/

/-- What is read inside a value or a reference at some level. -/
theorem ensures_typeRefWith {element : Production TypeRef} {n : Nat}
    (h : element.Ensures fun t => t.depth + 1 ≤ n) :
    (typeRefWith element).Ensures fun t => t.depth ≤ n := by
  refine Ensures.then _ fun t => ?_
  split
  · refine Ensures.then _ fun _ => Ensures.then _ fun b => ensures_pure ?_
    exact Nat.zero_le _
  · refine Ensures.then _ fun _ => h.bind fun t ht => ?_
    exact Ensures.then _ fun _ => Ensures.then _ fun b => ensures_pure ht
  · exact ensures_fail _

/-- A reference has no more layers than it is read with. -/
theorem ensures_typeRef (levels : Nat) :
    (typeRef levels).Ensures fun t => t.depth ≤ levels := by
  induction levels with
  | zero => exact ensures_typeRefWith (ensures_fail _)
  | succ levels ih => exact ensures_typeRefWith (ih.mono fun t ht => Nat.succ_le_succ ht)

/-- Nothing else gets into the fields of an object than those that are put in. -/
theorem mem_insertField {n : Name} {v : Value} {f : Name × Value} {fs : List (Name × Value)}
    (h : f ∈ insertField n v fs) : f = (n, v) ∨ f ∈ fs := by
  induction fs with
  | nil => simpa [insertField] using h
  | cons g fs ih =>
    rw [insertField] at h
    split at h
    · rcases List.mem_cons.1 h with h | h
      · exact Or.inl h
      · exact Or.inr (List.mem_cons_of_mem g h)
    · split at h
      · simpa using h
      · rcases List.mem_cons.1 h with rfl | h
        · exact Or.inr List.mem_cons_self
        · exact (ih h).imp_right (List.mem_cons_of_mem g)

/-- The fields of an object in order are those that were read. -/
theorem mem_sortFields {f : Name × Value} {fs : List (Name × Value)} (h : f ∈ sortFields fs) :
    f ∈ fs := by
  have hfold : ∀ acc : List (Name × Value),
      f ∈ fs.foldl (fun acc f => insertField f.1 f.2 acc) acc → f ∈ acc ∨ f ∈ fs := by
    clear h
    induction fs with
    | nil => exact fun acc h => Or.inl h
    | cons g fs ih =>
      intro acc h
      rcases ih _ h with h | h
      · rcases mem_insertField h with rfl | h
        · exact Or.inr List.mem_cons_self
        · exact Or.inl h
      · exact Or.inr (List.mem_cons_of_mem g h)
  exact (hfold [] h).resolve_left List.not_mem_nil

theorem ensures_named {α : Type} {item : Production α} {P : α → Prop} (h : item.Ensures P) :
    (named item).Ensures fun f => P f.2 := by
  refine Ensures.then _ fun n => Ensures.then _ fun _ => h.bind fun a ha => ?_
  exact ensures_pure ha

theorem ensures_valueWith {fuel n : Nat} {constant : Bool} {inner : Production Value}
    (h : inner.Ensures fun v => v.depth + 1 ≤ n) :
    (valueWith fuel constant inner).Ensures fun v => v.depth ≤ n := by
  have hflat : ∀ {v : Value}, v.depth = 0 → v.depth ≤ n := fun hv => hv ▸ Nat.zero_le n
  refine Ensures.then _ fun t => ?_
  split
  · exact Ensures.then _ fun _ => ensures_pure (hflat rfl)
  · unfold wordOf
    split
    · exact ensures_fail _
    · split
      · exact ensures_fail _
      · exact Ensures.then _ fun _ => ensures_pure (hflat rfl)
  · unfold floatOf
    split
    · exact Ensures.then _ fun _ => ensures_pure (hflat rfl)
    · exact ensures_fail _
  · exact Ensures.then _ fun s => ensures_pure (hflat rfl)
  · refine Ensures.then _ fun _ => (ensures_many h _ fuel).bind fun vs hvs => ?_
    exact Ensures.then _ fun _ => ensures_pure (itemsDepth_le_iff.2 hvs)
  · refine Ensures.then _ fun _ => (ensures_many (ensures_named h) _ fuel).bind fun fs hfs => ?_
    refine Ensures.then _ fun _ => ensures_pure (fieldsDepth_le_iff.2 fun f hf => ?_)
    exact hfs f (mem_sortFields hf)
  · split
    · exact ensures_fail _
    · exact Ensures.then _ fun _ => Ensures.then _ fun _ => ensures_pure (hflat rfl)
  · exact ensures_fail _

/-- A value nests no deeper than it is read with, by induction on that. -/
theorem ensures_value (fuel levels : Nat) (constant : Bool) :
    (value fuel constant levels).Ensures fun v => v.depth ≤ levels := by
  induction levels with
  | zero => exact ensures_valueWith (ensures_fail _)
  | succ levels ih => exact ensures_valueWith (ih.mono fun v hv => Nat.succ_le_succ hv)

/-! ## Members -/

/-- What is between two marks, or nothing. -/
theorem ensures_between {α : Type} {item : Production α} {P : α → Prop} (h : item.Ensures P)
    (fuel : Nat) (opening closing : Mark) (starts : Option Token → Bool) (onward : List String) :
    (between fuel opening closing starts item onward).Ensures fun xs => ∀ x ∈ xs, P x := by
  refine Ensures.then _ fun b => ?_
  split
  · refine h.bind fun first hfirst => (ensures_many h _ fuel).bind fun others hothers => ?_
    exact Ensures.then _ fun _ => ensures_pure (List.forall_mem_cons.2 ⟨hfirst, hothers⟩)
  · exact ensures_pure nofun

/-- Values that nest no deeper than they may. -/
def AreShallow (vs : List Value) : Prop := ∀ v ∈ vs, v.depth ≤ maxLevels

theorem areShallow_append {vs ws : List Value} :
    AreShallow (vs ++ ws) ↔ AreShallow vs ∧ AreShallow ws := List.forall_mem_append

theorem areShallow_flatMap {α : Type} {f : α → List Value} {xs : List α} :
    AreShallow (xs.flatMap f) ↔ ∀ x ∈ xs, AreShallow (f x) := List.forall_mem_flatMap

/-- The values given to directives nest no deeper than they may. -/
theorem ensures_directives (fuel : Nat) :
    (directives fuel).Ensures fun ds => AreShallow (givenValues ds) := by
  refine (ensures_many (P := fun d => AreShallow (d.arguments.map Prod.snd)) ?_ _ fuel).mono
    fun ds hds => areShallow_flatMap.2 hds
  refine Ensures.then _ fun _ => Ensures.then _ fun n => ?_
  refine (ensures_between (ensures_named (ensures_value fuel maxLevels false)) _ _ _ _ _).bind
    fun args hargs => ensures_pure ?_
  exact List.forall_mem_map.2 hargs

/-- So do the default of an argument and what its directives are given. -/
theorem ensures_inputValue (fuel : Nat) : (inputValue fuel).Ensures fun v =>
    AreShallow v.literals ∧ v.type.depth ≤ maxLevels := by
  refine Ensures.then _ fun d => Ensures.then _ fun n => Ensures.then _ fun _ => ?_
  refine (ensures_typeRef maxLevels).bind fun t ht => ?_
  -- the directives end either way, behind a default value or without one
  have hend : ∀ v : Option Value, AreShallow v.toList →
      (directives fuel >>= fun ds => pure ⟨d, n, t, v, ds⟩).Ensures fun v : InputValue =>
        AreShallow v.literals ∧ v.type.depth ≤ maxLevels := fun v hv =>
    (ensures_directives fuel).bind fun ds hds =>
      ensures_pure ⟨areShallow_append.2 ⟨hv, hds⟩, ht⟩
  refine Ensures.then _ fun b => ?_
  split
  · refine (ensures_value fuel maxLevels true).bind fun v hv => ?_
    exact hend (some v) (List.forall_mem_singleton.2 hv)
  · exact hend none nofun

theorem ensures_arguments (fuel : Nat) : (arguments fuel).Ensures fun vs => ∀ v ∈ vs,
    AreShallow v.literals ∧ v.type.depth ≤ maxLevels :=
  ensures_between (ensures_inputValue fuel) _ _ _ _ _

/-- So do the values in a field, and its type and those of its arguments. -/
theorem ensures_field (fuel : Nat) : (field fuel).Ensures fun f =>
    AreShallow f.literals ∧ ∀ t ∈ f.references, t.depth ≤ maxLevels := by
  refine Ensures.then _ fun d => Ensures.then _ fun n => ?_
  refine (ensures_arguments fuel).bind fun args hargs => Ensures.then _ fun _ => ?_
  refine (ensures_typeRef maxLevels).bind fun t ht => ?_
  refine (ensures_directives fuel).bind fun ds hds => ensures_pure ⟨?_, ?_⟩
  · exact areShallow_append.2 ⟨areShallow_flatMap.2 fun v hv => (hargs v hv).1, hds⟩
  · exact List.forall_mem_cons.2 ⟨ht, List.forall_mem_map.2 fun v hv => (hargs v hv).2⟩

theorem ensures_enumValue (fuel : Nat) :
    (enumValue fuel).Ensures fun v => AreShallow (givenValues v.directives) := by
  refine Ensures.then _ fun d => Ensures.then _ fun n => ?_
  exact (ensures_directives fuel).bind fun ds hds => ensures_pure hds

/-! ## Definitions -/

/-- Directives with a content, none of whose values and references nest too deep. -/
def IsSoundBody (b : List Directive × Content) : Prop :=
  AreShallow (givenValues b.1 ++ b.2.literals) ∧ ∀ t ∈ b.2.references, t.depth ≤ maxLevels

theorem ensures_fieldsBody (fuel : Nat) {make : List Name → List Field → Content}
    (hliterals : ∀ is fs, (make is fs).literals = fs.flatMap Field.literals)
    (hreferences : ∀ is fs, (make is fs).references = fs.flatMap Field.references) :
    (do
      let is ← implements fuel
      let ds ← directives fuel
      pure (ds, make is (← fields fuel)) : Production (List Directive × Content)).Ensures
        IsSoundBody := by
  refine Ensures.then _ fun is => (ensures_directives fuel).bind fun ds hds => ?_
  refine (ensures_between (ensures_field fuel) _ _ _ _ _).bind fun fs hfs => ensures_pure ⟨?_, ?_⟩
  · rw [hliterals, areShallow_append]
    exact ⟨hds, areShallow_flatMap.2 fun f hf => (hfs f hf).1⟩
  · rw [hreferences, List.forall_mem_flatMap]
    exact fun f hf => (hfs f hf).2

/-- So do the values and types in the body of a type, whatever its shape. -/
theorem ensures_body (fuel : Nat) (shape : Shape) : (body fuel shape).Ensures IsSoundBody := by
  have hdirectives := ensures_directives fuel
  cases shape with
  | object => exact ensures_fieldsBody fuel (fun _ _ => rfl) fun _ _ => rfl
  | interface => exact ensures_fieldsBody fuel (fun _ _ => rfl) fun _ _ => rfl
  | scalar =>
    refine hdirectives.bind fun ds hds => ensures_pure ⟨?_, nofun⟩
    exact areShallow_append.2 ⟨hds, nofun⟩
  | union =>
    refine hdirectives.bind fun ds hds => Ensures.then _ fun ms => ensures_pure ⟨?_, nofun⟩
    exact areShallow_append.2 ⟨hds, nofun⟩
  | enum =>
    refine hdirectives.bind fun ds hds => ?_
    refine (ensures_between (ensures_enumValue fuel) _ _ _ _ _).bind fun vs hvs => ?_
    exact ensures_pure ⟨areShallow_append.2 ⟨hds, areShallow_flatMap.2 hvs⟩, nofun⟩
  | inputObject =>
    refine hdirectives.bind fun ds hds => ?_
    refine (ensures_between (ensures_inputValue fuel) _ _ _ _ _).bind fun fs hfs =>
      ensures_pure ⟨?_, ?_⟩
    · exact areShallow_append.2 ⟨hds, areShallow_flatMap.2 fun f hf => (hfs f hf).1⟩
    · exact List.forall_mem_map.2 fun f hf => (hfs f hf).2

/-- A type that is read is sound. -/
theorem ensures_typeDefinition (fuel : Nat) (d : Option String) (shape : Shape) :
    (typeDefinition fuel d shape).Ensures Definition.IsSound := by
  refine Ensures.then _ fun _ => Ensures.then _ fun n => ?_
  exact (ensures_body fuel shape).bind fun b hb => ensures_pure ⟨hb.1, hb.2, nofun, nofun⟩

/-- What a rule yields that judges what it has read. -/
def Accepts (P : Definition → Prop) (r : Except Complaint Definition) : Prop :=
  ∀ d, r = .ok d → P d

/-- An addition to a type that is read is sound, if it is accepted. -/
theorem ensures_typeExtension (fuel : Nat) :
    (typeExtension fuel).Ensures (Accepts Definition.IsSound) := by
  refine Ensures.then _ fun t => ?_
  split
  · split
    · next shape _ =>
      refine Ensures.then _ fun _ => Ensures.then _ fun n => ?_
      refine (ensures_body fuel shape).bind fun b hb => ?_
      obtain ⟨ds, c⟩ := b
      dsimp only
      split
      · next hadds =>
        refine ensures_pure ?_
        rintro _ ⟨⟩
        refine ⟨hb.1, hb.2, nofun, ?_⟩
        rintro _ ⟨⟩
        exact hadds
      · exact ensures_pure nofun
    · exact ensures_fail _
  · exact ensures_fail _

/-- Roots are bound to a schema without a change to its directives. -/
theorem directives_of_bindRoots {s s' : SchemaDefinition} {faults : List RootFault}
    {roots : List (Name × Name)} (h : bindRoots s faults roots = .ok s') :
    s'.directives = s.directives := by
  induction roots generalizing s faults with
  | nil =>
    rw [bindRoots] at h
    split at h
    · cases h
      rfl
    · cases h
  | cons root roots ih =>
    rw [bindRoots] at h
    split at h
    · next o _ =>
      split at h
      · exact ih h
      · rw [ih h]
        cases o <;> rfl
    · exact ih h

/-- A schema that is read is sound, if it is accepted. -/
theorem ensures_schemaDefinition (fuel : Nat) :
    (schemaDefinition fuel).Ensures (Accepts Definition.IsSound) := by
  refine Ensures.then _ fun _ => (ensures_directives fuel).bind fun ds hds => ?_
  refine Ensures.then _ fun _ => Ensures.then _ fun roots => Ensures.then _ fun _ => ?_
  refine ensures_pure fun d hd => ?_
  cases hs : bindRoots ⟨ds, none, none, none⟩ [] roots with
  | error c =>
    rw [hs] at hd
    cases hd
  | ok s =>
    rw [hs] at hd
    cases hd
    refine ⟨?_, nofun, nofun, nofun⟩
    show AreShallow (givenValues s.directives)
    rw [directives_of_bindRoots hs]
    exact hds

theorem ensures_location : location.Ensures fun n => isDirectiveLocation n.text = true := by
  refine Ensures.then _ fun t => ?_
  split
  · split
    · next h => exact Ensures.then _ fun _ => ensures_pure h
    · exact ensures_fail _
  · exact ensures_fail _

/-- A directive that is read is sound; above all, its locations are those that there are. -/
theorem ensures_directiveDefinition (fuel : Nat) (d : Option String) :
    (directiveDefinition fuel d).Ensures Definition.IsSound := by
  refine Ensures.then _ fun _ => Ensures.then _ fun _ => Ensures.then _ fun n => ?_
  refine (ensures_arguments fuel).bind fun args hargs => Ensures.then _ fun again => ?_
  refine Ensures.then _ fun b => ?_
  split
  · refine Ensures.bind (P := fun ns => ∀ n ∈ ns, isDirectiveLocation n.text = true) ?_
      fun ns hns => ensures_pure ⟨?_, ?_, ?_, nofun⟩
    · refine Ensures.then _ fun isLed => Ensures.then _ fun t => ?_
      split
      · exact ensures_separated ensures_location _ fuel
      · exact ensures_pure nofun
    · exact areShallow_flatMap.2 fun v hv => (hargs v hv).1
    · exact List.forall_mem_map.2 fun v hv => (hargs v hv).2
    · rintro _ ⟨⟩
      exact hns
  · exact ensures_fail _

theorem ensures_describable (fuel : Nat) (words : List String) (d : Option String) :
    (describable fuel words d).Ensures Definition.IsSound := by
  refine Ensures.then _ fun t => ?_
  split
  · split
    · exact ensures_directiveDefinition fuel d
    · split
      · exact ensures_typeDefinition fuel d _
      · exact ensures_fail _
  · exact ensures_fail _

/-- What is read behind a description is sound. -/
theorem ensures_describedDefinition (fuel : Nat) :
    (describedDefinition fuel).Ensures Definition.IsSound := by
  refine Ensures.then _ fun d => ?_
  split
  · exact ensures_describable fuel _ _
  · exact ensures_describable fuel _ _

/-! ## Fragments -/

/-- A definition that is accepted is sound if it is when it is read. -/
theorem isSound_of_judge {r : Production (Except Complaint Definition)}
    (h : r.Ensures (Accepts Definition.IsSound)) {ls rest : List Lexeme} {d : Definition}
    (hread : judge r ls = .ok (d, rest)) : d.IsSound := by
  rw [judge] at hread
  split at hread
  · next hrun =>
    cases hread
    exact h.run hrun d rfl
  · cases hread
  · cases hread

theorem isSound_of_readDefinition {fuel : Nat} {ls rest : List Lexeme} {d : Definition}
    (h : readDefinition fuel ls = .ok (d, rest)) : d.IsSound := by
  rw [readDefinition] at h
  split at h
  · split at h
    · exact isSound_of_judge (ensures_schemaDefinition fuel) h
    · split at h
      · split at h
        · exact isSound_of_judge (ensures_typeExtension fuel) h
        · cases h
      · exact (ensures_describedDefinition fuel).run h
  · exact (ensures_describedDefinition fuel).run h

/-- All definitions of a fragment are sound, by induction on their number. -/
theorem isSound_of_readDefinitions {fuel count : Nat} {ls rest : List Lexeme}
    {ds : List Definition} (h : readDefinitions fuel count ls = .ok (ds, rest)) :
    ∀ d ∈ ds, d.IsSound := by
  induction count generalizing ls ds with
  | zero =>
    cases h
    exact nofun
  | succ count ih =>
    rw [readDefinitions] at h
    split at h
    · split at h
      · next hd =>
        split at h
        · next hds =>
          cases h
          exact List.forall_mem_cons.2 ⟨isSound_of_readDefinition hd, ih hds⟩
        · cases h
      · cases h
    · cases h
      exact nofun

/-- **Fragments.**  A fragment that is read holds a definition, and only sound ones. -/
theorem isSound_of_ofText {text : String} {ds : List Definition} (h : ofText text = .ok ds) :
    ds ≠ [] ∧ ∀ d ∈ ds, d.IsSound := by
  obtain ⟨ahead, first, rest, others, -, hfirst, hothers, rfl⟩ := exists_of_ofText h
  refine ⟨List.cons_ne_nil _ _, List.forall_mem_cons.2 ⟨?_, ?_⟩⟩
  · exact isSound_of_readDefinition hfirst
  · exact isSound_of_readDefinitions hothers

/-! ## Merged definitions -/

/-- A union holds nothing that neither list holds. -/
theorem subset_unionBy {α β : Type} [DecidableEq β] (key : α → β) (xs ys : List α) :
    ∀ x ∈ unionBy key xs ys, x ∈ xs ∨ x ∈ ys := by
  have hstep : ∀ ys xs : List α, ∀ x ∈ unionBy key xs ys, x ∈ xs ∨ x ∈ ys := by
    intro ys
    induction ys with
    | nil => exact fun xs x hx => Or.inl hx
    | cons y ys ih =>
      intro xs x hx
      rcases ih _ x hx with h | h
      · dsimp only at h
        split at h
        · exact Or.inl h
        · rcases List.mem_append.1 h with h | h
          · exact Or.inl h
          · exact Or.inr (List.mem_cons.2 (Or.inl (List.mem_singleton.1 h)))
      · exact Or.inr (List.mem_cons_of_mem y h)
  exact hstep ys xs

/-- What is made of the items of a union is made of those of either list. -/
theorem flatMap_unionBy {α β γ : Type} [DecidableEq β] (key : α → β) (f : α → List γ)
    (xs ys : List α) : ∀ v ∈ (unionBy key xs ys).flatMap f, v ∈ xs.flatMap f ++ ys.flatMap f := by
  intro v hv
  obtain ⟨x, hx, hv⟩ := List.mem_flatMap.1 hv
  rw [List.mem_append, List.mem_flatMap, List.mem_flatMap]
  exact (subset_unionBy key xs ys x hx).imp (fun h => ⟨x, h, hv⟩) fun h => ⟨x, h, hv⟩

/-- The values in two contents together are values in either of them. -/
theorem Content.literals_absorb (c later : Content) :
    ∀ v ∈ (c.absorb later).literals, v ∈ c.literals ++ later.literals := by
  intro v hv
  rw [List.mem_append]
  cases c <;> cases later <;> first
    | exact Or.inl hv
    | exact List.mem_append.1 (flatMap_unionBy _ _ _ _ v hv)

/-- The references in two contents together are references in either of them. -/
theorem Content.references_absorb (c later : Content) :
    ∀ t ∈ (c.absorb later).references, t ∈ c.references ++ later.references := by
  intro t ht
  rw [List.mem_append]
  cases c <;> cases later <;> first
    | exact Or.inl ht
    | exact List.mem_append.1 (flatMap_unionBy _ _ _ _ t ht)
    | obtain ⟨f, hf, rfl⟩ := List.mem_map.1 ht
      exact (subset_unionBy _ _ _ f hf).imp List.mem_map_of_mem List.mem_map_of_mem

/-- A sound definition stays sound when it absorbs another. -/
theorem Definition.IsSound.absorb {d later : Definition} (h : d.IsSound) (hlater : later.IsSound) :
    (d.absorb later).IsSound := by
  cases d with
  | type t =>
    cases later with
    | type u =>
      refine ⟨fun v hv => ?_, fun r hr => ?_, nofun, nofun⟩
      · have hparts : v ∈ givenValues t.directives ++ givenValues u.directives ∨
            v ∈ t.content.literals ++ u.content.literals :=
          (List.mem_append.1 hv).imp (flatMap_unionBy _ _ _ _ v) (Content.literals_absorb _ _ v)
        have hboth : v ∈ (Definition.type t).literals ∨ v ∈ (Definition.type u).literals := by
          simp only [Definition.literals, List.mem_append] at hparts ⊢
          tauto
        exact hboth.elim (h.literals v) (hlater.literals v)
      · rcases List.mem_append.1 (Content.references_absorb _ _ r hr) with hr | hr
        · exact h.references r hr
        · exact hlater.references r hr
    | schema | extension | directive => exact h
  | schema s =>
    cases later with
    | schema s' =>
      refine ⟨fun v hv => ?_, nofun, nofun, nofun⟩
      rcases List.mem_append.1 (flatMap_unionBy _ _ _ _ v hv) with hv | hv
      · exact h.literals v hv
      · exact hlater.literals v hv
    | type | extension | directive => exact h
  | extension | directive => exact h

/-- Sound definitions are merged into sound ones. -/
theorem isSound_merged {ds : List Definition} (h : ∀ d ∈ ds, d.IsSound) :
    ∀ d ∈ merged ds, d.IsSound := by
  have hfold : ∀ (later : List Definition) (first : Definition), first.IsSound →
      (∀ d ∈ later, d.IsSound) → (later.foldl Definition.absorb first).IsSound := by
    intro later
    induction later with
    | nil => exact fun first hfirst _ => hfirst
    | cons d later ih =>
      intro first hfirst hlater
      rw [List.forall_mem_cons] at hlater
      exact ih _ (hfirst.absorb hlater.1) hlater.2
  intro d hd
  obtain ⟨first, hfirst, rfl⟩ := List.mem_map.1 hd
  have hsound := h first (subset_leaders ds hfirst)
  rw [combined]
  split
  · refine hfold _ first hsound fun e he => h e ?_
    exact List.mem_of_mem_filter (List.mem_of_mem_tail he)
  · exact hsound

/-- The first definition of all leads. -/
theorem merged_ne_nil {ds : List Definition} (h : ds ≠ []) : merged ds ≠ [] := by
  induction ds using List.reverseRecOn with
  | nil => exact absurd rfl h
  | append_singleton ds d ih =>
    rw [merged, Ne, List.map_eq_nil_iff, leaders_concat_eq]
    by_cases hds : ds = []
    · subst hds
      simp [isKnown]
    · have := ih hds
      rw [merged, Ne, List.map_eq_nil_iff] at this
      simp [this]

/-- **Merged fragments.**  What one or more fragments are merged into are sound definitions, at
least one. -/
theorem isSound_of_mergeTexts {texts : List String} {ds : List Definition} (htexts : texts ≠ [])
    (h : mergeTexts texts = .ok ds) : ds ≠ [] ∧ ∀ d ∈ ds, d.IsSound := by
  obtain ⟨hread, -, rfl⟩ := (mergeTexts_eq_ok_iff texts ds).1 h
  have hsound : ∀ text ∈ texts, definitionsIn text ≠ [] ∧ ∀ d ∈ definitionsIn text, d.IsSound := by
    intro text htext
    obtain ⟨es, hes⟩ := hread text htext
    rw [definitionsIn_eq hes]
    exact isSound_of_ofText hes
  refine ⟨merged_ne_nil ?_, isSound_merged ?_⟩
  · obtain ⟨text, texts, rfl⟩ := List.exists_cons_of_ne_nil htexts
    rw [allDefinitions, List.flatMap_cons]
    exact List.append_ne_nil_of_left_ne_nil (hsound text List.mem_cons_self).1 _
  · exact List.forall_mem_flatMap.2 fun text htext => (hsound text htext).2

end Fragment

end SchemaCatalog

/-
# Merging texts

Texts are read and merged one after the other.  What stops them is the first text that
cannot be read, or the first definition that conflicts with those before it, whichever
comes first.
-/
import SchemaCatalog.Proofs.Merging

namespace SchemaCatalog.Fragment

/-! ## What texts hold -/

/-- The definitions of a text.  A text that cannot be read has none. -/
def definitionsIn (text : String) : List Definition :=
  match readRepaired text with
  | .ok ds => ds
  | .error _ | .brokenOff => []

/-- The definitions of several texts, in order. -/
def allDefinitions (texts : List String) : List Definition := texts.flatMap definitionsIn

/-- Whether a text can be read. -/
def IsReadable (text : String) : Prop := ∃ ds, readRepaired text = .ok ds

/-- What is objected to a text that comes behind others: it cannot be read, reading it breaks
off, or one of its definitions conflicts with those before it. -/
def textObjection? (before : List String) (text : String) : Option (Attempt.Halt MergeError) :=
  match readRepaired text with
  | .error e => some (.failure (.unreadable before.length e))
  | .brokenOff => some .breakOff
  | .ok ds =>
    (firstObjection? conflict? (allDefinitions before) ds).map fun c => .failure (.conflict c)

theorem definitionsIn_eq {text : String} {ds : List Definition}
    (h : readRepaired text = .ok ds) : definitionsIn text = ds := by
  rw [definitionsIn, h]

/-- What cannot be read is objected to for that alone. -/
theorem textObjection?_unreadable_iff {before : List String} {text : String} {i : Nat}
    {e : SyntaxError} :
    textObjection? before text = some (.failure (.unreadable i e)) ↔
      i = before.length ∧ readRepaired text = .error e := by
  rw [textObjection?]
  cases readRepaired text with
  | ok ds => simp
  | error e' => simp [eq_comm]
  | brokenOff => simp

/-- Reading breaks off, whatever came before. -/
theorem textObjection?_breakOff_iff {before : List String} {text : String} :
    textObjection? before text = some .breakOff ↔ readRepaired text = .brokenOff := by
  rw [textObjection?]
  cases readRepaired text <;> simp

/-- What can be read is objected to for its first definition with a conflict. -/
theorem textObjection?_conflict_iff {before : List String} {text : String} {c : Conflict} :
    textObjection? before text = some (.failure (.conflict c)) ↔
      ∃ passed d behind, readRepaired text = .ok (passed ++ d :: behind) ∧
        ClearAfter conflict? (allDefinitions before) passed ∧
          conflict? (allDefinitions before ++ passed) d = some c := by
  rw [textObjection?]
  cases readRepaired text with
  | error e => simp
  | brokenOff => simp
  | ok ds =>
    simp only [Option.map_eq_some_iff, Attempt.Halt.failure.injEq, MergeError.conflict.injEq,
      exists_eq_right, firstObjection?_eq_some_iff, Attempt.ok.injEq]

/-- Nothing is objected to a text that can be read and conflicts with nothing before it. -/
theorem textObjection?_eq_none_iff {before : List String} {text : String} :
    textObjection? before text = none ↔
      IsReadable text ∧ ClearAfter conflict? (allDefinitions before) (definitionsIn text) := by
  rw [textObjection?, IsReadable]
  cases hread : readRepaired text with
  | error e => simp
  | brokenOff => simp
  | ok ds => simp [definitionsIn_eq hread, firstObjection?_eq_none_iff]

@[simp] theorem allDefinitions_concat (texts : List String) (text : String) :
    allDefinitions (texts ++ [text]) = allDefinitions texts ++ definitionsIn text := by
  simp [allDefinitions]

/-- Nothing is objected to texts that can be read and are in harmony. -/
theorem clear_texts_iff (texts : List String) :
    ClearAfter textObjection? [] texts ↔
      (∀ text ∈ texts, IsReadable text) ∧ Harmonious (allDefinitions texts) := by
  -- from behind: what is asked of a text depends on those before it
  induction texts using List.reverseRecOn with
  | nil =>
    simp only [clearAfter_nil, true_iff]
    exact ⟨by simp, clearAfter_nil _ _⟩
  | append_singleton texts text ih =>
    rw [clearAfter_append, ih, clearAfter_cons, allDefinitions_concat, harmonious_append,
      List.nil_append, textObjection?_eq_none_iff, List.forall_mem_append,
      List.forall_mem_singleton]
    constructor
    · rintro ⟨⟨hreadable, hclear⟩, ⟨htext, hds⟩, -⟩
      exact ⟨⟨hreadable, htext⟩, hclear, hds⟩
    · rintro ⟨⟨hreadable, htext⟩, hclear, hds⟩
      exact ⟨⟨hreadable, hclear⟩, ⟨htext, hds⟩, clearAfter_nil _ _⟩

/-! ## One text more -/

/-- The texts are counted, and their definitions are held. -/
def HoldsTexts (state : Nat × Merger) (texts : List String) : Prop :=
  state.1 = texts.length ∧ state.2.Holds (allDefinitions texts)

/-- **One step.**  A text ends the run for what is objected to it. -/
theorem heeds_textObjection :
    Heeds (fun state text => (addText state text).toExcept) textObjection? HoldsTexts := by
  refine ⟨?_, ?_⟩
  · rintro ⟨i, m⟩ before text e ⟨hi, hm⟩ he
    rw [textObjection?] at he
    rw [addText]
    cases hread : readRepaired text with
    | error cause =>
      simp only [hread, Option.some.injEq] at he
      rw [← he, ← hi]
      rfl
    | brokenOff =>
      simp only [hread, Option.some.injEq] at he
      rw [← he]
      rfl
    | ok ds =>
      simp only [hread, Option.map_eq_some_iff] at he
      obtain ⟨c, hc, rfl⟩ := he
      have hrun : m.addAll ds = .error c := (Merger.heeds_conflict.run_eq_error_iff hm).2 hc
      simp only [hrun, Attempt.toExcept]
  · rintro ⟨i, m⟩ before text ⟨hi, hm⟩ he
    obtain ⟨⟨ds, hread⟩, hclear⟩ := textObjection?_eq_none_iff.1 he
    rw [definitionsIn_eq hread] at hclear
    obtain ⟨m', hrun⟩ := (Merger.heeds_conflict.exists_run_iff hm).2 hclear
    have hm' := (Merger.heeds_conflict.of_run hm hrun).2
    -- the run over the definitions of this text goes on from those of the texts before
    have hall : m.addAll ds = .ok m' := hrun
    refine ⟨(i + 1, m'), by simp only [addText, hread, hall, Attempt.toExcept], ?_, ?_⟩
    · simpa using hi
    · rw [allDefinitions_concat, definitionsIn_eq hread]
      exact hm'

theorem holdsTexts_nil : HoldsTexts (0, .empty) [] := ⟨rfl, Merger.holds_empty⟩

/-! ## All texts -/

/-- Texts are merged exactly if they can be read and are in harmony. -/
theorem mergeTexts_eq_ok_iff (texts : List String) (ms : List Definition) :
    mergeTexts texts = .ok ms ↔
      (∀ text ∈ texts, IsReadable text) ∧ Harmonious (allDefinitions texts) ∧
        ms = merged (allDefinitions texts) := by
  rw [← and_assoc, ← clear_texts_iff, ← heeds_textObjection.exists_run_iff holdsTexts_nil,
    ← Attempt.toExcept_foldlM, mergeTexts, Attempt.map_eq_ok_iff]
  simp only [Attempt.toExcept_eq_ok_iff]
  -- whatever the run comes to holds the definitions of all the texts
  have hholds : ∀ {state}, texts.foldlM addText (0, .empty) = .ok state →
      state.2.definitions = merged (allDefinitions texts) := by
    intro state hrun
    rw [← Attempt.toExcept_eq_ok_iff, Attempt.toExcept_foldlM] at hrun
    exact (heeds_textObjection.of_run holdsTexts_nil hrun).2.2.definitions
  constructor
  · rintro ⟨state, hrun, rfl⟩
    exact ⟨⟨state, hrun⟩, hholds hrun⟩
  · rintro ⟨⟨state, hrun⟩, rfl⟩
    exact ⟨state, hrun, hholds hrun⟩

/-- The run ends as is objected to the first text to which anything is. -/
theorem mergeTexts_halts_iff (texts : List String) (e : Attempt.Halt MergeError) :
    (mergeTexts texts).toExcept = .error e ↔
      ∃ passed text after, texts = passed ++ text :: after ∧
        (∀ t ∈ passed, IsReadable t) ∧ Harmonious (allDefinitions passed) ∧
          textObjection? passed text = some e := by
  have hrun : (mergeTexts texts).toExcept = .error e ↔
      (texts.foldlM addText (0, .empty)).toExcept = .error e := by
    cases e <;> simp [mergeTexts]
  rw [hrun, Attempt.toExcept_foldlM, heeds_textObjection.run_eq_error_iff holdsTexts_nil,
    firstObjection?_eq_some_iff]
  simp only [clear_texts_iff, List.nil_append, and_assoc]

/-- What is reported is what is objected to the first text to which anything is. -/
theorem mergeTexts_eq_error_iff (texts : List String) (e : MergeError) :
    mergeTexts texts = .error e ↔
      ∃ passed text after, texts = passed ++ text :: after ∧
        (∀ t ∈ passed, IsReadable t) ∧ Harmonious (allDefinitions passed) ∧
          textObjection? passed text = some (.failure e) := by
  rw [← Attempt.toExcept_eq_failure_iff, mergeTexts_halts_iff]

/-- Texts that do not come alone become the text of what they are merged into. -/
theorem mergedText_eq {texts : List String} (h : texts.length ≠ 1) :
    mergedText texts = (mergeTexts texts).map write := by
  rw [mergedText]
  rintro text rfl
  exact h rfl

/-! ## The layout -/

/-- Each subject is defined once, in the order in which the subjects are first defined. -/
theorem subjects_merged (ds : List Definition) :
    (merged ds).filterMap Definition.subject? =
      (ds.filterMap Definition.subject?).eraseDups := by
  have hleaders : (merged ds).filterMap Definition.subject? =
      (leaders ds).filterMap Definition.subject? := by
    rw [merged, List.filterMap_map]
    exact List.filterMap_congr fun e _ => subject?_combined ds e
  rw [hleaders]
  clear hleaders
  -- a definition leads exactly if its subject is not among those before it
  induction ds using List.reverseRecOn with
  | nil => rfl
  | append_singleton ds d ih =>
    rw [leaders_concat_eq, List.filterMap_append, List.filterMap_append, List.eraseDups_append, ih]
    cases hs : d.subject? with
    | none => simp [isKnown_of_subject?_eq_none hs, hs]
    | some s =>
      have hknown : (ds.filterMap Definition.subject?).elem s = isKnown ds d := by
        rw [Bool.eq_iff_iff, List.elem_eq_contains, List.contains_iff_mem, isKnown_iff hs,
          List.mem_filterMap]
      have hself : [d].filterMap Definition.subject? = [s] := by simp [hs]
      simp only [hself, List.removeAll, List.filter_cons, hknown, List.filter_nil]
      cases isKnown ds d <;> simp [hself, List.eraseDups_cons]

/-- Additions to types are kept as they are. -/
theorem typeExtensions_merged (ds : List Definition) :
    typeExtensions (merged ds) = typeExtensions ds := by
  have hcombined : ∀ e, (combined ds e).extension? = e.extension? := by
    intro e
    cases e with
    | type t => rw [combined_type]; rfl
    | schema s => rw [combined_schema]; rfl
    | directive d => rw [combined_directive]
    | extension e => rfl
  have hleaders : typeExtensions (merged ds) = typeExtensions (leaders ds) := by
    rw [typeExtensions, merged, List.filterMap_map]
    exact List.filterMap_congr fun e _ => hcombined e
  rw [hleaders]
  clear hleaders hcombined
  induction ds using List.reverseRecOn with
  | nil => rfl
  | append_singleton ds d ih =>
    unfold typeExtensions at ih ⊢
    rw [leaders_concat_eq, List.filterMap_append, List.filterMap_append, ih]
    cases d with
    | extension e =>
      rw [isKnown_of_subject?_eq_none rfl]
      rfl
    | schema | type | directive => split <;> rfl

/-- A merged definition of a type is its first one with all that the later ones add. -/
theorem type_of_mem_merged {ds : List Definition} {t : TypeDefinition}
    (h : .type t ∈ merged ds) :
    ∃ first later, typeDefinitions t.name.text ds = first :: later ∧
      t = later.foldl TypeDefinition.absorb first := by
  obtain ⟨e, he, hcombined⟩ := List.mem_map.1 h
  cases e with
  | type first =>
    rw [combined_type, Definition.type.injEq] at hcombined
    have hname : first.name = t.name := by
      rw [← hcombined]
      exact (foldl_absorb_type first _).1.symm
    refine ⟨first, _, typeDefinitions_eq_cons he (congrArg Name.text hname), ?_⟩
    rw [← hname]
    exact hcombined.symm
  | schema s => rw [combined_schema] at hcombined; cases hcombined
  | directive d => rw [combined_directive] at hcombined; cases hcombined
  | extension e => cases hcombined

/-- In the merged definition of the schema each operation starts where it first did. -/
theorem schema_of_mem_merged {ds : List Definition} {s : SchemaDefinition}
    (h : .schema s ∈ merged ds) (o : Operation) : s.root o = boundRoot o ds := by
  obtain ⟨e, he, hcombined⟩ := List.mem_map.1 h
  cases e with
  | schema first =>
    rw [combined_schema, Definition.schema.injEq] at hcombined
    rw [← hcombined, root_foldl_absorb, ← schemaDefinitions_eq_cons he, boundRoot]
  | type t => rw [combined_type] at hcombined; cases hcombined
  | directive d => rw [combined_directive] at hcombined; cases hcombined
  | extension e => cases hcombined

/-- A merged definition of a directive is its first one. -/
theorem directive_of_mem_merged {ds : List Definition} {d : DirectiveDefinition}
    (h : .directive d ∈ merged ds) : (directiveDefinitions d.name.text ds).head? = some d := by
  obtain ⟨e, he, hcombined⟩ := List.mem_map.1 h
  cases e with
  | directive first =>
    rw [combined_directive, Definition.directive.injEq] at hcombined
    subst hcombined
    have hhead := head?_defining_of_mem_leaders he rfl
    rw [defining_directive, List.head?_map] at hhead
    obtain ⟨a, ha, haf⟩ := Option.map_eq_some_iff.1 hhead
    cases haf
    exact ha
  | schema s => rw [combined_schema] at hcombined; cases hcombined
  | type t => rw [combined_type] at hcombined; cases hcombined
  | extension e => cases hcombined

/-- How definitions are laid out that a sequence comes to. -/
structure IsLayout (ds ms : List Definition) : Prop where
  /-- What is defined is defined once, in the order of its first definition. -/
  subjects : ms.filterMap Definition.subject? = (ds.filterMap Definition.subject?).eraseDups
  extensions : typeExtensions ms = typeExtensions ds
  /-- A type is what its definitions come to, from the first to the last. -/
  types : ∀ t, .type t ∈ ms → ∃ first later, typeDefinitions t.name.text ds = first :: later ∧
    t = later.foldl TypeDefinition.absorb first
  /-- An operation starts from the type that it was first bound to. -/
  roots : ∀ s, .schema s ∈ ms → ∀ o, s.root o = boundRoot o ds
  directives : ∀ d, .directive d ∈ ms → (directiveDefinitions d.name.text ds).head? = some d

theorem isLayout_merged (ds : List Definition) : IsLayout ds (merged ds) where
  subjects := subjects_merged ds
  extensions := typeExtensions_merged ds
  types _ := type_of_mem_merged
  roots _ := schema_of_mem_merged
  directives _ := directive_of_mem_merged

/-- **Merging texts.**  Texts that do not come alone are merged, and merging them fails at
the first text that cannot be read or the first definition that conflicts with those
before it.  A text is read before any of its definitions is looked at.  Where reading the first
text that stops it breaks off, merging breaks off.  If nothing stops it, each type, the schema
and each directive is defined once, where it was first defined, and additions to types are
kept. -/
theorem mergeTexts_exact (texts : List String) :
    (∀ i e, mergeTexts texts = .error (.unreadable i e) ↔
      ∃ passed text after, texts = passed ++ text :: after ∧ i = passed.length ∧
        (∀ t ∈ passed, IsReadable t) ∧ Harmonious (allDefinitions passed) ∧
          readRepaired text = .error e) ∧
    (∀ c, mergeTexts texts = .error (.conflict c) ↔
      ∃ passed text after before d behind, texts = passed ++ text :: after ∧
        (∀ t ∈ passed, IsReadable t) ∧ readRepaired text = .ok (before ++ d :: behind) ∧
          Harmonious (allDefinitions passed ++ before) ∧
            conflict? (allDefinitions passed ++ before) d = some c) ∧
    (mergeTexts texts = .brokenOff ↔
      ∃ passed text after, texts = passed ++ text :: after ∧ (∀ t ∈ passed, IsReadable t) ∧
        Harmonious (allDefinitions passed) ∧ readRepaired text = .brokenOff) ∧
    (∀ ms, mergeTexts texts = .ok ms ↔
      (∀ t ∈ texts, IsReadable t) ∧ Harmonious (allDefinitions texts) ∧
        ms = (leaders (allDefinitions texts)).map (combined (allDefinitions texts))) ∧
    (∀ ms, mergeTexts texts = .ok ms → IsLayout (allDefinitions texts) ms) ∧
    (texts.length ≠ 1 → mergedText texts = (mergeTexts texts).map write) := by
  refine ⟨?_, ?_, ?_, mergeTexts_eq_ok_iff texts, ?_, mergedText_eq⟩
  · intro i e
    rw [mergeTexts_eq_error_iff]
    constructor
    · rintro ⟨passed, text, after, rfl, hread, hclear, he⟩
      obtain ⟨hi, htext⟩ := textObjection?_unreadable_iff.1 he
      exact ⟨passed, text, after, rfl, hi, hread, hclear, htext⟩
    · rintro ⟨passed, text, after, rfl, hi, hread, hclear, htext⟩
      exact ⟨passed, text, after, rfl, hread, hclear, textObjection?_unreadable_iff.2 ⟨hi, htext⟩⟩
  · intro c
    rw [mergeTexts_eq_error_iff]
    constructor
    · rintro ⟨passed, text, after, rfl, hread, hclear, he⟩
      obtain ⟨before, d, behind, htext, hbefore, hc⟩ := textObjection?_conflict_iff.1 he
      exact ⟨passed, text, after, before, d, behind, rfl, hread, htext,
        harmonious_append.2 ⟨hclear, hbefore⟩, hc⟩
    · rintro ⟨passed, text, after, before, d, behind, rfl, hread, htext, hbefore, hc⟩
      -- the texts before it are in harmony, and so is what the text itself has before `d`
      obtain ⟨hclear, hbefore⟩ := harmonious_append.1 hbefore
      exact ⟨passed, text, after, rfl, hread, hclear,
        textObjection?_conflict_iff.2 ⟨before, d, behind, htext, hbefore, hc⟩⟩
  · rw [← Attempt.toExcept_eq_breakOff_iff, mergeTexts_halts_iff]
    simp only [textObjection?_breakOff_iff]
  · intro ms h
    rw [((mergeTexts_eq_ok_iff texts ms).1 h).2.2]
    exact isLayout_merged _

/-- A type that is redefined with another shape, in front of a text that cannot be read. -/
theorem mergeTexts_of_reshaped_type :
    let texts := ["type A {a: Int}", "directive @d on ENUM union A = B", "type"]
    let c : Conflict := .shapes "A" .object .union
    mergeTexts texts = .error (.conflict c) ∧ texts.length ≠ 1 ∧
      mergedText texts = .error (.conflict c) := by
  intro texts c
  have h : mergeTexts texts = .error (.conflict c) := by rfl
  have hlength : texts.length ≠ 1 := by decide
  exact ⟨h, hlength, by rw [(mergeTexts_exact texts).2.2.2.2.2 hlength, h]; rfl⟩

/-- A block string whose lines share an indentation that ends within a character: merging
breaks off at its text, which is not reported. -/
theorem mergeTexts_of_torn_line :
    let texts := ["type A {a: Int}", "\"\"\"\n x\n\u3000y\n\"\"\"\ntype B {b: Int}"]
    IsReadable "type A {a: Int}" ∧
      readRepaired "\"\"\"\n x\n\u3000y\n\"\"\"\ntype B {b: Int}" = .brokenOff ∧
      mergeTexts texts = .brokenOff ∧
      ¬∃ e, mergeTexts texts = .error (.unreadable 1 e) := by
  intro texts
  have hbroken : mergeTexts texts = .brokenOff := by rfl
  refine ⟨⟨_, rfl⟩, by rfl, hbroken, ?_⟩
  rintro ⟨e, he⟩
  rw [hbroken] at he
  cases he

end SchemaCatalog.Fragment

/-
# Repetitions

A definition that came before adds nothing when it comes again.  The one that was combined
for its subject has absorbed it, and what has absorbed a definition stays so, whatever it
absorbs later.  Hence the merger is left as it is, and whatever follows finds it so.
-/
import SchemaCatalog.Proofs.Regrouping

namespace SchemaCatalog.Fragment

/-! ## Nothing new -/

section

variable {α β : Type} [DecidableEq β] (key : α → β)

/-- A union adds nothing exactly if it knows all keys. -/
theorem unionBy_eq_self_iff {xs ys : List α} :
    unionBy key xs ys = xs ↔ ys.map key ⊆ xs.map key := by
  constructor
  · intro h k hk
    rw [← h]
    exact (mem_keys_unionBy key xs ys k).2 (Or.inr hk)
  · intro h
    induction ys with
    | nil => rfl
    | cons y ys ih =>
      obtain ⟨hy, hys⟩ := List.cons_subset.1 (List.map_cons ▸ h)
      rw [unionBy_cons, if_pos hy]
      exact ih hys

@[simp] theorem unionBy_self (xs : List α) : unionBy key xs xs = xs :=
  (unionBy_eq_self_iff key).2 (List.Subset.refl _)

@[simp] theorem unionBy_twice (xs ys : List α) :
    unionBy key (unionBy key xs ys) ys = unionBy key xs ys :=
  (unionBy_eq_self_iff key).2 fun k hk => (mem_keys_unionBy key xs ys k).2 (Or.inr hk)

/-- What adds nothing to a list adds nothing to a longer one. -/
theorem unionBy_of_eq_self {xs zs : List α} (h : unionBy key xs zs = xs) (ys : List α) :
    unionBy key (unionBy key xs ys) zs = unionBy key xs ys :=
  (unionBy_eq_self_iff key).2 fun k hk =>
    (mem_keys_unionBy key xs ys k).2 (Or.inl ((unionBy_eq_self_iff key).1 h hk))

end

/-- What adds nothing to a choice adds nothing to a longer one. -/
theorem orElse_of_eq_self {α : Type} {x z : Option α} (h : (x <|> z) = x) (y : Option α) :
    ((x <|> y) <|> z) = (x <|> y) := by
  cases x with
  | some a => rfl
  | none =>
    obtain rfl : z = none := h
    cases y <;> rfl

/-! ## Definitions that cover others -/

/-- A definition covers another if there is nothing in it to absorb. -/
def Definition.Covers (d later : Definition) : Prop := d.absorb later = d

/-- Nothing is taken from a content of another shape. -/
theorem Content.absorb_of_shape_ne {c d : Content} (h : c.shape ≠ d.shape) : c.absorb d = c := by
  rw [absorb, merge?_eq, if_neg h]
  rfl

theorem Content.absorb_self (c : Content) : c.absorb c = c := by
  cases c <;> simp [absorb, merge?, mergeNames]

/-- The same content adds nothing a second time. -/
theorem Content.absorb_twice (c d : Content) : (c.absorb d).absorb d = c.absorb d := by
  cases c <;> cases d <;> simp [absorb, merge?, mergeNames]

/-- What has nothing to add to a content has nothing to add once that has grown. -/
theorem Content.absorb_of_eq_self {c z : Content} (h : c.absorb z = c) (d : Content) :
    (c.absorb d).absorb z = c.absorb d := by
  by_cases hz : c.shape = z.shape
  · by_cases hd : c.shape = d.shape
    · -- lists of one sort stand in all three
      cases c <;> cases z <;> cases hz <;> cases d <;> cases hd <;>
        simp_all [absorb, merge?, mergeNames, unionBy_of_eq_self]
    · rw [absorb_of_shape_ne hd, h]
  · refine absorb_of_shape_ne ?_
    rwa [shape_absorb]

theorem TypeDefinition.absorb_self (t : TypeDefinition) : t.absorb t = t := by
  simp only [absorb, mergeDirectives, unionBy_self, Content.absorb_self,
    Option.orElse_eq_orElse, Option.orElse_eq_or, Option.or_self]

/-- The same type adds nothing a second time. -/
theorem TypeDefinition.absorb_twice (t u : TypeDefinition) :
    (t.absorb u).absorb u = t.absorb u := by
  simp only [absorb, mergeDirectives, unionBy_twice, Content.absorb_twice,
    Option.orElse_eq_orElse, Option.orElse_eq_or, Option.or_assoc, Option.or_self]

theorem TypeDefinition.absorb_of_eq_self {t z : TypeDefinition} (h : t.absorb z = t)
    (u : TypeDefinition) : (t.absorb u).absorb z = t.absorb u := by
  obtain ⟨hdescription, -, hdirectives, hcontent⟩ := TypeDefinition.mk.inj h
  simp only [absorb, mergeDirectives, unionBy_of_eq_self _ hdirectives,
    Content.absorb_of_eq_self hcontent, orElse_of_eq_self hdescription]

theorem SchemaDefinition.absorb_self (s : SchemaDefinition) : s.absorb s = s := by
  simp only [absorb, mergeDirectives, unionBy_self, Option.orElse_eq_orElse,
    Option.orElse_eq_or, Option.or_self]

theorem SchemaDefinition.absorb_twice (s u : SchemaDefinition) :
    (s.absorb u).absorb u = s.absorb u := by
  simp only [absorb, mergeDirectives, unionBy_twice, Option.orElse_eq_orElse,
    Option.orElse_eq_or, Option.or_assoc, Option.or_self]

theorem SchemaDefinition.absorb_of_eq_self {s z : SchemaDefinition} (h : s.absorb z = s)
    (u : SchemaDefinition) : (s.absorb u).absorb z = s.absorb u := by
  obtain ⟨hdirectives, hquery, hmutation, hsubscription⟩ := SchemaDefinition.mk.inj h
  simp only [absorb, mergeDirectives, unionBy_of_eq_self _ hdirectives,
    orElse_of_eq_self hquery, orElse_of_eq_self hmutation, orElse_of_eq_self hsubscription]

theorem Definition.covers_self (d : Definition) : d.Covers d := by
  cases d with
  | type t => exact congrArg Definition.type t.absorb_self
  | schema s => exact congrArg Definition.schema s.absorb_self
  | directive d => rfl
  | extension e => rfl

/-- What has been absorbed is covered. -/
theorem Definition.covers_absorbed (d e : Definition) : (d.absorb e).Covers e := by
  cases d <;> cases e <;>
    first
    | exact congrArg Definition.type (TypeDefinition.absorb_twice _ _)
    | exact congrArg Definition.schema (SchemaDefinition.absorb_twice _ _)
    | rfl

/-- What is covered stays covered, whatever is absorbed. -/
theorem Definition.Covers.absorb {d z : Definition} (h : d.Covers z) (e : Definition) :
    (d.absorb e).Covers z := by
  cases d with
  | type t =>
    cases z with
    | type u =>
      cases e with
      | type v =>
        exact congrArg Definition.type
          (TypeDefinition.absorb_of_eq_self (Definition.type.inj h) v)
      | schema | directive | extension => exact h
    | schema | directive | extension => cases e <;> rfl
  | schema s =>
    cases z with
    | schema u =>
      cases e with
      | schema v =>
        exact congrArg Definition.schema
          (SchemaDefinition.absorb_of_eq_self (Definition.schema.inj h) v)
      | type | directive | extension => exact h
    | type | directive | extension => cases e <;> rfl
  | directive d => rfl
  | extension e => rfl

/-- All that was absorbed on the way is covered at the end. -/
theorem Definition.covers_foldl_absorb {d z : Definition} {later : List Definition}
    (h : d.Covers z ∨ z ∈ later) : (later.foldl Definition.absorb d).Covers z := by
  induction later generalizing d with
  | nil => exact h.resolve_right List.not_mem_nil
  | cons e later ih =>
    rw [List.foldl_cons]
    apply ih
    rcases h with h | h
    · exact Or.inl (h.absorb e)
    · rcases List.mem_cons.1 h with rfl | h
      · exact Or.inl (d.covers_absorbed z)
      · exact Or.inr h

/-- What the definitions of a subject are combined to covers each of them. -/
theorem combined_covers {ds : List Definition} {first z : Definition} {s : Subject}
    (hfirst : first ∈ leaders ds) (hs : first.subject? = some s) (hz : z ∈ ds)
    (hzs : z.subject? = some s) : (combined ds first).Covers z := by
  obtain ⟨later, hall⟩ := List.head?_eq_some_iff.1 (head?_defining_of_mem_leaders hfirst hs)
  have hmem : z ∈ defining s ds := List.mem_filter.2 ⟨hz, decide_eq_true hzs⟩
  rw [combined_eq hs, hall, List.tail_cons]
  rw [hall] at hmem
  apply Definition.covers_foldl_absorb
  rcases List.mem_cons.1 hmem with rfl | hlater
  · exact Or.inl z.covers_self
  · exact Or.inr hlater

/-! ## One definition again -/

/-- A merged type is what the first of the two comes to by absorbing the second. -/
theorem TypeDefinition.eq_absorb_of_merge {t u v : TypeDefinition} (h : t.merge u = .ok v) :
    v = t.absorb u := by
  rw [TypeDefinition.merge_eq] at h
  split at h
  · exact (Except.ok.inj h).symm
  · cases h

theorem SchemaDefinition.eq_absorb_of_merge {s u v : SchemaDefinition} (h : s.merge u = .ok v) :
    v = s.absorb u := by
  rw [SchemaDefinition.merge_eq] at h
  split at h
  · cases h
  · exact (Except.ok.inj h).symm

/-- What stands among consistent definitions conflicts with none of them. -/
theorem IsConsistent.conflict?_eq_none {ds : List Definition} (h : IsConsistent ds)
    {z : Definition} (hz : z ∈ ds) : conflict? ds z = none := by
  cases z with
  | type t =>
    rw [h.conflict?_type_iff]
    intro u hu hname
    exact h.shapes u t hu hz hname
  | schema s =>
    rw [h.conflict?_schema_iff]
    intro u hu
    exact h.roots u s hu hz
  | directive d => rfl
  | extension e => rfl

/-- A definition is known where it stands. -/
theorem isKnown_of_mem {ds : List Definition} {z : Definition} {s : Subject} (hz : z ∈ ds)
    (hs : z.subject? = some s) : isKnown ds z = true :=
  (isKnown_iff hs).2 ⟨z, hz, hs⟩

/-- A definition has a place among those that it is one of. -/
theorem place_ne_none {ds : List Definition} {z : Definition} {s : Subject} (hz : z ∈ ds)
    (hs : z.subject? = some s) : place s ds ≠ none := by
  rw [Ne, place_eq_none_iff hs, isKnown_of_mem hz hs]
  exact Bool.noConfusion

namespace Merger

variable {m : Merger} {ds : List Definition}

/-- What is written over with itself stays as it is. -/
theorem replace_self {i : Nat} {d : Definition} (h : m.definitions[i]? = some d) :
    m.replace i d = m := by
  obtain ⟨hi, rfl⟩ := List.getElem?_eq_some_iff.1 h
  rw [replace, List.set_getElem_self]

/-- Where a merge gives what is at the place already, all stays as it is. -/
theorem map_replace_self {α : Type} {i : Nat} {d : Definition} {merge : Except Conflict α}
    {make : α → Definition} (hplace : m.definitions[i]? = some d)
    (hsame : ∀ x, merge = .ok x → make x = d) {m' : Merger}
    (hok : (merge.map fun x => m.replace i (make x)) = .ok m') :
    (merge.map fun x => m.replace i (make x)) = .ok m := by
  cases hmerge : merge with
  | error c =>
    rw [hmerge] at hok
    cases hok
  | ok x =>
    rw [← hsame x hmerge] at hplace
    exact congrArg Except.ok (replace_self hplace)

/-- At the place of a leader is what the definitions of its subject are combined to. -/
theorem Holds.getElem?_eq (h : m.Holds ds) {i : Nat} {first : Definition}
    (hi : (leaders ds)[i]? = some first) : m.definitions[i]? = some (combined ds first) := by
  rw [h.definitions, merged, List.getElem?_map, hi, Option.map_some]

/-- **One step.**  A definition that came before leaves all as it is. -/
theorem Holds.add_of_mem (h : m.Holds ds) (hds : IsConsistent ds) {z : Definition} (hz : z ∈ ds)
    (haddition : z.extension? = none) : m.add z = .ok m := by
  obtain ⟨m', hm', -⟩ := heeds_conflict.accepts h (hds.conflict?_eq_none hz)
  cases z with
  | schema s =>
    rcases h.schemaAt?_cases with ⟨-, hnone⟩ | ⟨i, first, hat, hi⟩
    · exact absurd hnone (place_ne_none hz rfl)
    · have hcovers := combined_covers (List.mem_of_getElem? hi) rfl hz rfl
      have hplace := h.getElem?_eq hi
      rw [combined_schema] at hcovers hplace
      rw [Merger.add, Merger.addSchema, hat] at hm' ⊢
      -- what is put at the place is what was there
      refine map_replace_self hplace (fun merged hmerge => ?_) hm'
      rw [SchemaDefinition.eq_absorb_of_merge hmerge]
      exact hcovers
  | type t =>
    rcases h.typeAt?_cases t.name.text with ⟨-, hnone⟩ | ⟨i, first, hat, hi, hname⟩
    · exact absurd hnone (place_ne_none hz rfl)
    · have hfirst : (Definition.type first).subject? = some (.type t.name.text) := by
        rw [Definition.subject?, hname]
      have hcovers := combined_covers (List.mem_of_getElem? hi) hfirst hz rfl
      have hplace := h.getElem?_eq hi
      rw [combined_type, hname] at hcovers hplace
      rw [Merger.add, Merger.addType, hat] at hm' ⊢
      refine map_replace_self hplace (fun merged hmerge => ?_) hm'
      rw [TypeDefinition.eq_absorb_of_merge hmerge]
      exact hcovers
  | directive d =>
    have hknown : m.directiveNames.contains d.name.text = true := by
      rw [h.directives]
      exact isKnown_of_mem hz rfl
    rw [Merger.add, Merger.addDirective, if_pos hknown]
  | extension e => cases haddition

/-- **A run.**  Definitions that came before leave all as it is, in whatever order and
however often they come. -/
theorem Holds.addAll_of_mem (h : m.Holds ds) (hds : IsConsistent ds) {zs : List Definition}
    (hzs : ∀ z ∈ zs, z ∈ ds ∧ z.extension? = none) : m.addAll zs = .ok m := by
  induction zs with
  | nil => rfl
  | cons z zs ih =>
    obtain ⟨⟨hz, haddition⟩, hrest⟩ := List.forall_mem_cons.1 hzs
    rw [addAll, List.foldlM_cons, h.add_of_mem hds hz haddition]
    exact ih hrest

end Merger

/-! ## Repeated definitions and texts -/

/-- Definitions may be repeated before others come. -/
theorem mergeDefinitions_repeated {xs zs : List Definition}
    (hzs : ∀ z ∈ zs, z ∈ xs ∧ z.extension? = none) (ws : List Definition) :
    mergeDefinitions (xs ++ zs ++ ws) = mergeDefinitions (xs ++ ws) := by
  unfold mergeDefinitions Merger.addAll
  rw [List.append_assoc, List.foldlM_append, List.foldlM_append]
  cases hrun : xs.foldlM Merger.add .empty with
  | error c => rfl
  | ok m =>
    obtain ⟨hclear, hm⟩ := Merger.heeds_conflict.of_run Merger.holds_empty hrun
    have hzs := hm.addAll_of_mem ((harmonious_iff xs).1 hclear) hzs
    have hsame : (zs ++ ws).foldlM Merger.add m = ws.foldlM Merger.add m := by
      rw [List.foldlM_append, ← Merger.addAll, hzs]
      rfl
    exact congrArg (Except.map Merger.definitions) hsame

/-- The definitions of texts that came before, none of them an addition, came before. -/
theorem mem_allDefinitions_of_repeated {ts us : List String}
    (hus : ∀ u ∈ us, u ∈ ts ∧ ∀ d ∈ definitionsIn u, d.extension? = none) :
    ∀ d ∈ allDefinitions us, d ∈ allDefinitions ts ∧ d.extension? = none := by
  intro d hd
  obtain ⟨u, hu, hdu⟩ := List.mem_flatMap.1 hd
  obtain ⟨hmem, hadditions⟩ := hus u hu
  exact ⟨List.mem_flatMap.2 ⟨u, hmem, hdu⟩, hadditions d hdu⟩

/-- Texts may be repeated before others come. -/
theorem mergeTexts_repeated {ts us : List String}
    (hus : ∀ u ∈ us, u ∈ ts ∧ ∀ d ∈ definitionsIn u, d.extension? = none) (vs : List String)
    (ms : List Definition) :
    mergeTexts (ts ++ us ++ vs) = .ok ms ↔ mergeTexts (ts ++ vs) = .ok ms := by
  have hdefinitions : mergeDefinitions (allDefinitions (ts ++ us ++ vs)) =
      mergeDefinitions (allDefinitions (ts ++ vs)) := by
    simp only [allDefinitions, List.flatMap_append]
    exact mergeDefinitions_repeated (mem_allDefinitions_of_repeated hus) (allDefinitions vs)
  have hreadable : (∀ text ∈ ts ++ us ++ vs, IsReadable text) ↔
      ∀ text ∈ ts ++ vs, IsReadable text := by
    simp only [List.forall_mem_append]
    constructor
    · rintro ⟨⟨hts, -⟩, hvs⟩
      exact ⟨hts, hvs⟩
    · rintro ⟨hts, hvs⟩
      exact ⟨⟨hts, fun u hu => hts u (hus u hu).1⟩, hvs⟩
  rw [mergeTexts_eq_ok_iff_mergeDefinitions, mergeTexts_eq_ok_iff_mergeDefinitions, hdefinitions,
    hreadable]

/-- What stops texts stops them when more come. -/
theorem mergeTexts_append_of_halt {ts : List String} {e : Attempt.Halt MergeError}
    (h : (mergeTexts ts).toExcept = .error e) (us : List String) :
    (mergeTexts (ts ++ us)).toExcept = .error e := by
  obtain ⟨passed, text, after, rfl, hread, hclear, he⟩ := (mergeTexts_halts_iff ts e).1 h
  rw [mergeTexts_halts_iff]
  exact ⟨passed, text, after ++ us, by simp, hread, hclear, he⟩

/-- **Repetitions.**  Definitions that are no additions to types may come again, in any order
and any number of times: what they are merged into stays the same, and so does what comes of
all that follows them.  A text without additions may come again in the same way. -/
theorem mergeDefinitions_absorbs_repetitions :
    (∀ xs zs ms : List Definition, (∀ z ∈ zs, z ∈ xs ∧ z.extension? = none) →
      mergeDefinitions xs = .ok ms → mergeDefinitions (xs ++ zs) = .ok ms) ∧
    (∀ xs zs ws : List Definition, (∀ z ∈ zs, z ∈ xs ∧ z.extension? = none) →
      mergeDefinitions (xs ++ zs ++ ws) = mergeDefinitions (xs ++ ws)) ∧
    (∀ ts us : List String,
      (∀ u ∈ us, u ∈ ts ∧ ∀ d ∈ definitionsIn u, d.extension? = none) →
        mergeTexts (ts ++ us) = mergeTexts ts ∧
          ∀ vs ms, mergeTexts (ts ++ us ++ vs) = .ok ms ↔ mergeTexts (ts ++ vs) = .ok ms) := by
  refine ⟨?_, ?_, ?_⟩
  · intro xs zs ms hzs h
    have hsame := mergeDefinitions_repeated hzs []
    rw [List.append_nil, List.append_nil] at hsame
    exact hsame.trans h
  · intro xs zs ws hzs
    exact mergeDefinitions_repeated hzs ws
  · intro ts us hus
    refine ⟨?_, mergeTexts_repeated hus⟩
    cases h : mergeTexts ts with
    | error e =>
      rw [← Attempt.toExcept_eq_failure_iff] at h ⊢
      exact mergeTexts_append_of_halt h us
    | brokenOff =>
      rw [← Attempt.toExcept_eq_breakOff_iff] at h ⊢
      exact mergeTexts_append_of_halt h us
    | ok ms =>
      have hsame := mergeTexts_repeated hus [] ms
      rw [List.append_nil, List.append_nil] at hsame
      exact hsame.2 h

/-- An enum that repeats a value of its own, is described late and added to, and a directive
and a schema: all but the addition come again.  So do the texts of the enum. -/
theorem mergeDefinitions_of_shuffled_repetitions :
    let a : Name := ⟨"A", by decide⟩
    let b : Name := ⟨"B", by decide⟩
    let e : Name := ⟨"E", by decide⟩
    let first : Definition := .type ⟨none, e, [], .enum [⟨none, a, []⟩, ⟨none, a, []⟩]⟩
    let second : Definition := .type ⟨some "", e, [], .enum [⟨none, b, []⟩]⟩
    let addition : Definition := .extension ⟨e, [], .enum [⟨none, b, []⟩]⟩
    let directive : Definition := .directive ⟨none, e, [], false, [⟨"ENUM", by decide⟩]⟩
    let roots : Definition := .schema ⟨[], some e, none, none⟩
    let xs := [first, addition, second, directive, roots]
    let zs := [roots, second, first, directive, second]
    let ts := ["enum E {A A}", "extend enum E {B}", "\"\" enum E {B}"]
    let us := ["\"\" enum E {B}", "enum E {A A}", "\"\" enum E {B}"]
    (∀ z ∈ zs, z ∈ xs ∧ z.extension? = none) ∧
      mergeDefinitions (xs ++ zs) = .ok
        [.type ⟨some "", e, [], .enum [⟨none, a, []⟩, ⟨none, a, []⟩, ⟨none, b, []⟩]⟩,
          addition, directive, roots] ∧
      mergeDefinitions (xs ++ zs ++ [addition]) = mergeDefinitions (xs ++ [addition]) ∧
      mergeTexts (ts ++ us) = mergeTexts ts := by
  intro a b e first second addition directive roots xs zs ts us
  obtain ⟨hagain, hbefore, htexts⟩ := mergeDefinitions_absorbs_repetitions
  have hzs : ∀ z ∈ zs, z ∈ xs ∧ z.extension? = none := by
    simp [zs, xs, first, second, directive, roots]
  have hfirst : definitionsIn "enum E {A A}" = [first] := by rfl
  have hsecond : definitionsIn "\"\" enum E {B}" = [second] := by rfl
  have hus : ∀ u ∈ us, u ∈ ts ∧ ∀ d ∈ definitionsIn u, d.extension? = none := by
    simp [us, ts, hfirst, hsecond, first, second]
  exact ⟨hzs, hagain xs zs _ hzs rfl, hbefore xs zs [addition] hzs, (htexts ts us hus).1⟩

end SchemaCatalog.Fragment

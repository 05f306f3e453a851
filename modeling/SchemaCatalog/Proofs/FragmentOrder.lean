/-
# The order of fragments

Definitions that are merged end up together, whichever of them comes first, but additions
to types stay where they are, and a definition has to stand before the additions to its
type.  So the order of two fragments can decide whether they are catalogued at all.  It
does so only by what each of them says first of the types that both speak of.
-/
import SchemaCatalog.Proofs.FragmentMentions
import SchemaCatalog.Proofs.MergedTexts

namespace SchemaCatalog

open Fragment (IsReadable IsConsistent RootsMentioned allDefinitions definitionsIn merged
  mentions mergedText)
open Mention (first? DefinitionsFirst)

/-! ## Texts that are read as they were merged -/

/-- The text that some texts are merged into can be read, and putting missing separators in
changes nothing that is read. -/
def Fragment.IsFaithful (texts : List String) : Prop :=
  ∀ text, mergedText texts = .ok text →
    ∃ ds, Document.ofText text = .ok ds ∧ Catalog.definitionsOf text = .ok ds

/-- A text that can be read and lacks no separators is read as it was merged. -/
theorem Fragment.isFaithful_of_repair_eq {texts : List String} (text : String)
    (htext : mergedText texts = .ok text) (hrepair : Document.Implements.repair text = text)
    (hread : (Document.ofText text).toOption.isSome = true) : IsFaithful texts := by
  intro text' htext'
  cases htext.symm.trans htext'
  cases hds : Document.ofText text with
  | error e =>
    rw [hds] at hread
    cases hread
  | ok ds => exact ⟨ds, rfl, by rw [Catalog.definitionsOf, hrepair, hds]⟩

variable {texts : List String} {c : Catalog} {ds : List Fragment.Definition}
  {es : List Document.Definition}

theorem toText_fragments_eq_ok_iff (texts : List String) (text : String) :
    (Source.fragments texts).toText = .ok text ↔ mergedText texts = .ok text :=
  Attempt.mapError_eq_ok_iff

/-- Texts that do not come alone come down to the text of what they are merged into. -/
theorem mergedText_eq_ok_iff (hlength : texts.length ≠ 1) (text : String) :
    mergedText texts = .ok text ↔
      (∀ t ∈ texts, IsReadable t) ∧ IsConsistent (allDefinitions texts) ∧
        text = Fragment.write (merged (allDefinitions texts)) := by
  rw [Fragment.mergedText_eq hlength, ← Fragment.harmonious_iff, Attempt.map_eq_ok_iff]
  simp only [Fragment.mergeTexts_eq_ok_iff]
  constructor
  · rintro ⟨_, ⟨hread, hharmony, rfl⟩, rfl⟩
    exact ⟨hread, hharmony, rfl⟩
  · rintro ⟨hread, hharmony, rfl⟩
    exact ⟨_, ⟨hread, hharmony, rfl⟩, rfl⟩

/-- Texts that are catalogued are read as they were merged: a text that putting separators in
changes for the reader cannot be read any more. -/
theorem reread_of_catalog_fragments (hlength : 2 ≤ texts.length)
    (h : (Source.fragments texts).catalog = .ok c) :
    (∀ t ∈ texts, IsReadable t) ∧ IsConsistent (allDefinitions texts) ∧
      ∃ es, (merged (allDefinitions texts)).mapM Fragment.Definition.reread? = some es ∧
        Catalog.ofDefinitions es = .ok c := by
  obtain ⟨text, es, htext, hes, hc⟩ := Source.catalog_eq_ok h
  rw [toText_fragments_eq_ok_iff, mergedText_eq_ok_iff (by omega)] at htext
  obtain ⟨hread, hconsistent, rfl⟩ := htext
  have hne : texts ≠ [] := List.ne_nil_of_length_pos (by omega)
  have hmerged : merged (allDefinitions texts) ≠ [] :=
    (Fragment.isSound_of_mergeTexts hne ((Fragment.mergeTexts_eq_ok_iff texts _).2
      ⟨hread, (Fragment.harmonious_iff _).2 hconsistent, rfl⟩)).1
  exact ⟨hread, hconsistent, es, ((Fragment.definitionsOf_write_eq_ok_iff hmerged).1 hes).2, hc⟩

/-- Faithful texts that can be read and do not contradict each other are catalogued as what is
read of the definitions that they come to. -/
theorem catalog_fragments_eq (hlength : texts.length ≠ 1) (hfaithful : Fragment.IsFaithful texts)
    (hread : ∀ t ∈ texts, IsReadable t) (hconsistent : IsConsistent (allDefinitions texts)) :
    ∃ es, (merged (allDefinitions texts)).mapM Fragment.Definition.reread? = some es ∧
      (Source.fragments texts).catalog = .ofExcept (Catalog.ofDefinitions es) := by
  have htext := (mergedText_eq_ok_iff hlength _).2 ⟨hread, hconsistent, rfl⟩
  obtain ⟨es, hof, hes⟩ := hfaithful _ htext
  refine ⟨es, ((Fragment.ofText_write_eq_ok_iff _ es).1 hof).2, ?_⟩
  exact Source.catalog_eq ((toText_fragments_eq_ok_iff texts _).2 htext) hes

/-- Merged definitions are catalogued exactly if definitions come first and operations start
from types that are mentioned. -/
theorem exists_catalog_merged_iff (h : IsConsistent ds)
    (hes : (merged ds).mapM Fragment.Definition.reread? = some es) :
    (∃ c, Catalog.ofDefinitions es = .ok c) ↔
      DefinitionsFirst (mentions ds) ∧ RootsMentioned ds := by
  have hmentions := Fragment.mentions_of_mapM hes
  have hoperations := Fragment.operations_of_mapM hes
  -- a merged schema is written at most once and names each operation at most once, so of what
  -- can go wrong only the order of the types and missing root types are left
  have hops : ∀ s ∈ Document.schemaNodes es,
      (s.operations.map Document.RootOperation.operation).Nodup := by
    intro s hs
    have hmem := List.mem_map_of_mem (f := Document.SchemaNode.operations) hs
    rw [hoperations] at hmem
    obtain ⟨u, -, hu⟩ := List.mem_map.1 hmem
    exact hu ▸ u.nodup_operations
  have hlength : (Document.schemaNodes es).length ≤ 1 := by
    have := congrArg List.length hoperations
    rw [List.length_map, List.length_map] at this
    exact this ▸ Fragment.length_schemaDefinitions_merged ds
  have hroots : (∀ s ∈ Document.schemaNodes es, ∀ e ∈ s.operations,
      typeNameOf e ∈ (Document.mentions es).map Mention.typeName) ↔ RootsMentioned ds := by
    rw [← Fragment.rootsMentioned_merged_iff h, RootsMentioned, hmentions]
    rw [← List.forall_mem_map (f := Document.SchemaNode.operations)
      (P := fun ops => ∀ e ∈ ops, typeNameOf e ∈ _), hoperations, List.forall_mem_map]
    simp only [Fragment.SchemaDefinition.forall_operations_iff,
      Fragment.mem_schemaDefinitions_iff]
  have hfirst : (Document.mentions es).Pairwise Mention.Follows ↔
      DefinitionsFirst (mentions ds) := by
    rw [hmentions, Mention.pairwise_follows_iff (Fragment.pairwise_mentions_merged ds),
      Fragment.definitionsFirst_merged_iff]
  rw [Catalog.exists_ofDefinitions_iff hops, Document.isFresh_iff, hroots, hfirst]
  simp only [hlength, and_true]

/-- **Texts that are catalogued.**  Each of them can be read, no two of their definitions
contradict each other, definitions come first, and operations start from types that are
mentioned. -/
theorem of_catalog_fragments (hlength : 2 ≤ texts.length)
    (h : (Source.fragments texts).catalog = .ok c) :
    (∀ t ∈ texts, IsReadable t) ∧ IsConsistent (allDefinitions texts) ∧
      DefinitionsFirst (mentions (allDefinitions texts)) ∧
        RootsMentioned (allDefinitions texts) := by
  obtain ⟨hread, hconsistent, es, hes, hc⟩ := reread_of_catalog_fragments hlength h
  exact ⟨hread, hconsistent, (exists_catalog_merged_iff hconsistent hes).1 ⟨c, hc⟩⟩

/-- **Which texts are catalogued.**  Of texts that are read as they were merged nothing else is
asked. -/
theorem exists_catalog_fragments_iff (hlength : 2 ≤ texts.length)
    (hfaithful : Fragment.IsFaithful texts) :
    (∃ c, (Source.fragments texts).catalog = .ok c) ↔
      (∀ t ∈ texts, IsReadable t) ∧ IsConsistent (allDefinitions texts) ∧
        DefinitionsFirst (mentions (allDefinitions texts)) ∧
          RootsMentioned (allDefinitions texts) := by
  constructor
  · rintro ⟨c, hc⟩
    exact of_catalog_fragments hlength hc
  · rintro ⟨hread, hconsistent, hrest⟩
    obtain ⟨es, hes, hcatalog⟩ :=
      catalog_fragments_eq (by omega) hfaithful hread hconsistent
    simp only [hcatalog, Attempt.ofExcept_eq_ok_iff]
    exact (exists_catalog_merged_iff hconsistent hes).2 hrest

/-! ## What the texts tell of a type -/

/-- The types of the catalog are those that the texts mention. -/
theorem mem_keys_fragments_iff (hlength : 2 ≤ texts.length)
    (h : (Source.fragments texts).catalog = .ok c) (name : String) :
    name ∈ c.types.keys ↔ name ∈ (mentions (allDefinitions texts)).map Mention.typeName := by
  obtain ⟨-, -, es, hes, hc⟩ := reread_of_catalog_fragments hlength h
  rw [Catalog.mem_keys_iff hc, Fragment.mentions_of_mapM hes, Fragment.mem_typeNames_merged_iff]

/-- **Entries.**  What the texts mention tells every entry of the catalog. -/
theorem isTold_fragments (hlength : 2 ≤ texts.length)
    (h : (Source.fragments texts).catalog = .ok c) {name : String} {r : TypeEntry}
    (hr : c.get? name = some r) : r.IsTold name (mentions (allDefinitions texts)) := by
  obtain ⟨-, hconsistent, es, hes, hc⟩ := reread_of_catalog_fragments hlength h
  have htold := Catalog.isTold_of_get? hc hr
  rw [Fragment.mentions_of_mapM hes] at htold
  have hadds := Fragment.adds_merged_iff hconsistent
  refine ⟨?_, fun i => ?_, fun f => ?_⟩
  · obtain ⟨m, hm, hkind⟩ := htold.kind
    have hfirst := Fragment.kind_first?_merged name (allDefinitions texts)
    rw [hm, Option.map_some, hkind] at hfirst
    exact Option.map_eq_some_iff.1 hfirst.symm
  · rw [htold.interfaces, hadds, hadds]
  · rw [htold.fields, hadds]

/-! ## Two orders -/

theorem Fragment.IsConsistent.swap {ds es : List Fragment.Definition}
    (h : IsConsistent (ds ++ es)) : IsConsistent (es ++ ds) :=
  h.of_subset fun d hd => by simpa [or_comm] using hd

theorem Fragment.RootsMentioned.swap {ds es : List Fragment.Definition}
    (h : RootsMentioned (ds ++ es)) : RootsMentioned (es ++ ds) := by
  intro s hs o n hn
  have hmem := h s (by simpa [or_comm] using hs) o n hn
  simpa [or_comm] using hmem

/-- Consistent definitions of a type are mentions of one kind. -/
theorem Fragment.IsConsistent.kind_eq {ds : List Fragment.Definition} (h : IsConsistent ds)
    {f g : Mention} (hf : f ∈ mentions ds) (hg : g ∈ mentions ds)
    (hname : f.typeName = g.typeName) (hfk : f.kind.isExtension = false)
    (hgk : g.kind.isExtension = false) : f.kind = g.kind := by
  have hdef : ∀ m ∈ mentions ds, m.kind.isExtension = false →
      ∃ t : Fragment.TypeDefinition, .type t ∈ ds ∧ m = t.mention := by
    intro m hm hdef
    obtain ⟨d, hd, hdm⟩ := List.mem_filterMap.1 hm
    cases d with
    | type t => exact ⟨t, hd, (Option.some.inj hdm).symm⟩
    | extension e =>
      cases hdm
      cases hdef
    | schema | directive => cases hdm
  obtain ⟨t, ht, rfl⟩ := hdef f hf hfk
  obtain ⟨u, hu, rfl⟩ := hdef g hg hgk
  exact congrArg EntryKind.definition (h.shapes t u ht hu hname)

/-- Two fragments that are catalogued in either order give a type the same kind, unless
they only add to it. -/
theorem kind_eq_or_isExtension {ds es : List Fragment.Definition} {name : String}
    {r r' : TypeEntry} (h : IsConsistent (ds ++ es))
    (hfirst : DefinitionsFirst (mentions (ds ++ es)))
    (hfirst' : DefinitionsFirst (mentions (es ++ ds)))
    (hr : r.IsTold name (mentions (ds ++ es))) (hr' : r'.IsTold name (mentions (es ++ ds))) :
    r.kind = r'.kind ∨ r.kind.isExtension = true ∧ r'.kind.isExtension = true := by
  obtain ⟨f, hf, hfk⟩ := hr.kind
  obtain ⟨g, hg, hgk⟩ := hr'.kind
  obtain ⟨hfm, hfn⟩ := Mention.mem_of_first? hf
  obtain ⟨hgm, hgn⟩ := Mention.mem_of_first? hg
  have hgm' : g ∈ mentions (ds ++ es) := by simpa [or_comm] using hgm
  have hfm' : f ∈ mentions (es ++ ds) := by simpa [or_comm] using hfm
  rw [← hfk, ← hgk]
  cases hfe : f.kind.isExtension with
  | false =>
    have hge := hfirst' name g ⟨f, hfm', hfn, hfe⟩ hg
    exact Or.inl (h.kind_eq hfm hgm' (hfn.trans hgn.symm) hfe hge)
  | true =>
    cases hge : g.kind.isExtension with
    | false =>
      rw [hfirst name f ⟨g, hgm', hgn, hge⟩ hf] at hfe
      cases hfe
    | true => exact Or.inr ⟨rfl, rfl⟩

theorem allDefinitions_pair (a b : String) :
    allDefinitions [a, b] = definitionsIn a ++ definitionsIn b := by
  simp [allDefinitions]

/-- **The order of two fragments.**  Of two fragments that are catalogued in one order, and
are read as they were merged in the other, the other order is catalogued exactly if the two open
alike: each type that both speak of is defined by both where they first speak of it, or
added to by both.  If both orders are catalogued, the order decides neither which types there are
nor their kinds, unless a type is added to and never defined; nor which interfaces a type lists,
if both orders count it as an interface or neither does; nor which fields it has, if both orders
give it fields or neither does. -/
theorem fragmentOrder_exact (a b : String) :
    (Fragment.IsFaithful [b, a] → (∃ c, (Source.fragments [a, b]).catalog = .ok c) →
      ((∃ c, (Source.fragments [b, a]).catalog = .ok c) ↔
        Mention.OpenAlike (mentions (definitionsIn a)) (mentions (definitionsIn b)))) ∧
    ∀ c c', (Source.fragments [a, b]).catalog = .ok c →
      (Source.fragments [b, a]).catalog = .ok c' →
      (∀ name, name ∈ c.types.keys ↔ name ∈ c'.types.keys) ∧
      ∀ name r r', c.get? name = some r → c'.get? name = some r' →
        (r.kind = r'.kind ∨ r.kind.isExtension = true ∧ r'.kind.isExtension = true) ∧
        (r.kind.isInterface = r'.kind.isInterface →
          ∀ i, i ∈ r.interfaces ↔ i ∈ r'.interfaces) ∧
        (r.kind.hasFields = r'.kind.hasFields →
          ∀ f, f ∈ r.fields.map FieldEntry.name ↔ f ∈ r'.fields.map FieldEntry.name) := by
  have hab : 2 ≤ [a, b].length := Nat.le_refl 2
  have hba : 2 ≤ [b, a].length := Nat.le_refl 2
  refine ⟨fun hfaithful ⟨c, hc⟩ => ?_, fun c c' hc hc' => ?_⟩
  · obtain ⟨hread, hconsistent, hfirst, hroots⟩ := of_catalog_fragments hab hc
    have hiff := exists_catalog_fragments_iff hba hfaithful
    rw [allDefinitions_pair] at hconsistent hfirst hroots hiff
    rw [Fragment.mentions_append] at hfirst
    have hread' : ∀ t ∈ [b, a], IsReadable t := fun t ht => hread t (by simpa [or_comm] using ht)
    rw [hiff, ← hfirst.swap_iff, ← Fragment.mentions_append]
    constructor
    · exact fun hswap => hswap.2.2.1
    · exact fun hswap => ⟨hread', hconsistent.swap, hswap, hroots.swap⟩
  · obtain ⟨-, hconsistent, hfirst, -⟩ := of_catalog_fragments hab hc
    obtain ⟨-, -, hfirst', -⟩ := of_catalog_fragments hba hc'
    refine ⟨fun name => ?_, fun name r r' hr hr' => ?_⟩
    · rw [mem_keys_fragments_iff hab hc, mem_keys_fragments_iff hba hc']
      simp [allDefinitions_pair, or_comm]
    · have htold := isTold_fragments hab hc hr
      have htold' := isTold_fragments hba hc' hr'
      rw [allDefinitions_pair] at hconsistent hfirst hfirst' htold htold'
      have hadds : ∀ name x, Mention.Adds (mentions (definitionsIn a ++ definitionsIn b)) name x ↔
          Mention.Adds (mentions (definitionsIn b ++ definitionsIn a)) name x := by
        intro name x
        rw [Fragment.mentions_append, Fragment.mentions_append, Mention.adds_append_comm]
      refine ⟨kind_eq_or_isExtension hconsistent hfirst hfirst' htold htold',
        fun hkind i => ?_, fun hkind f => ?_⟩
      · rw [htold.interfaces, htold'.interfaces, hkind, hadds, hadds]
      · rw [htold.fields, htold'.fields, hkind, hadds]

/-- Two fragments that define one type, of which one adds to it besides. -/
theorem fragmentOrder_of_shared_definition :
    let a := "type T {a: Int}"
    let b := "type T {b: Int} extend type T {c: Int}"
    Fragment.IsFaithful [b, a] ∧ (∃ c, (Source.fragments [a, b]).catalog = .ok c) ∧
      ((∃ c, (Source.fragments [b, a]).catalog = .ok c) ↔
        Mention.OpenAlike (mentions (definitionsIn a)) (mentions (definitionsIn b))) := by
  intro a b
  have hba : Fragment.IsFaithful [b, a] :=
    Fragment.isFaithful_of_repair_eq
      "type T \x7b\n  b: Int\n  a: Int\n\x7d\n\nextend type T \x7b\n  c: Int\n\x7d\n"
      (by decide +kernel) (by decide +kernel) (by decide +kernel)
  have hc : ∃ c, (Source.fragments [a, b]).catalog = .ok c :=
    Attempt.exists_eq_ok_iff.2 (by decide +kernel)
  exact ⟨hba, hc, (fragmentOrder_exact a b).1 hba hc⟩

/-- A part of the entry of a type in a catalog that is made. -/
theorem exists_entry_of_toOption {β : Type} {x : Attempt Error Catalog} {name : String}
    (part : TypeEntry → β) {y : β}
    (h : (x.toOption.bind fun c => (c.get? name).map part) = some y) :
    ∃ c r, x = .ok c ∧ c.get? name = some r ∧ part r = y := by
  cases x with
  | ok c =>
    obtain ⟨r, hr, hy⟩ := Option.map_eq_some_iff.1 h
    exact ⟨c, r, rfl, hr, hy⟩
  | error | brokenOff => cases h

/-- The order decides whether an addition can be catalogued with the definition of its type,
and what a type lists that is only added to.  It can decide as well whether the merged text
is readable, since of two fields of one name the first is printed. -/
theorem fragmentOrder_matters :
    let definition := "type T {a: Int}"
    let addition := "extend type T {b: Int}"
    let asInterface := "extend interface T {a: Int} type U implements T"
    let asEnum := "extend enum T {X}"
    let infinite := "type T {a(x: Float = -1e400): Int}"
    (IsReadable definition ∧ IsReadable addition ∧ IsReadable asInterface ∧
      IsReadable asEnum ∧ IsReadable infinite) ∧
      ((∃ c, (Source.fragments [definition, addition]).catalog = .ok c) ∧
        (Source.fragments [addition, definition]).catalog =
          .error (.repetition (.typeDefinition "T"))) ∧
      ((∃ c r, (Source.fragments [asInterface, asEnum]).catalog = .ok c ∧
          c.get? "T" = some r ∧
          (r.interfaces, r.fields.map FieldEntry.name) = (["U"], ["a"])) ∧
        ∃ c r, (Source.fragments [asEnum, asInterface]).catalog = .ok c ∧
          c.get? "T" = some r ∧ (r.interfaces, r.fields.map FieldEntry.name) = ([], [])) ∧
      (∃ c, (Source.fragments [definition, infinite]).catalog = .ok c) ∧
        ¬∃ c, (Source.fragments [infinite, definition]).catalog = .ok c := by
  refine ⟨⟨?_, ?_, ?_, ?_, ?_⟩, ⟨?_, ?_⟩, ⟨?_, ?_⟩, ?_, ?_⟩
  · exact Attempt.exists_eq_ok_iff.2 (by decide +kernel)
  · exact Attempt.exists_eq_ok_iff.2 (by decide +kernel)
  · exact Attempt.exists_eq_ok_iff.2 (by decide +kernel)
  · exact Attempt.exists_eq_ok_iff.2 (by decide +kernel)
  · exact Attempt.exists_eq_ok_iff.2 (by decide +kernel)
  · exact Attempt.exists_eq_ok_iff.2 (by decide +kernel)
  · rfl
  · exact exists_entry_of_toOption (fun r => (r.interfaces, r.fields.map FieldEntry.name))
      (by decide +kernel)
  · exact exists_entry_of_toOption (fun r => (r.interfaces, r.fields.map FieldEntry.name))
      (by decide +kernel)
  · exact Attempt.exists_eq_ok_iff.2 (by decide +kernel)
  · exact fun h => absurd (Attempt.exists_eq_ok_iff.1 h) (by decide +kernel)

end SchemaCatalog

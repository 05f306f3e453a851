/-
# Mentions of types

Of all that a node says of its type, little decides which types a catalog has and how they
hang together: the kind of the node, and the names of the interfaces and of the fields that
it adds.  A mention keeps this much.  An entry is told by the first mention of its type and
by what all of them add, in whatever order they come.
-/
import Mathlib.Data.List.Induction
import SchemaCatalog.Proofs.Bindings
import SchemaCatalog.Proofs.Links

namespace SchemaCatalog

/-! ## Mentions -/

/-- What a mention can add to its type. -/
inductive Member where
  | interface (name : String)
  | field (name : String)
  deriving DecidableEq

/-- What a node says of its type, names alone. -/
structure Mention where
  typeName : String
  kind : EntryKind
  members : List Member
  deriving DecidableEq

/-- Whether an entry of a shape has a list of fields. -/
def Shape.hasFields : Shape → Bool
  | object | interface | inputObject => true
  | enum | scalar | union => false

/-- Whether an entry of a kind has a list of fields. -/
def EntryKind.hasFields : EntryKind → Bool
  | definition s | extension s => s.hasFields
  | operation => false

namespace Mention

/-- The name and the kind of a mention, without what it adds. -/
def tag (m : Mention) : String × EntryKind := (m.typeName, m.kind)

/-- The first mention of a type. -/
def first? (name : String) (ms : List Mention) : Option Mention :=
  ms.find? (·.typeName = name)

/-- Some mention of a type adds a member to it. -/
def Adds (ms : List Mention) (name : String) (x : Member) : Prop :=
  ∃ m ∈ ms, m.typeName = name ∧ x ∈ m.members

/-- Some mention of a type defines it. -/
def Defines (ms : List Mention) (name : String) : Prop :=
  ∃ m ∈ ms, m.typeName = name ∧ m.kind.isExtension = false

/-- The first mention of each type that is defined is a definition. -/
def DefinitionsFirst (ms : List Mention) : Prop :=
  ∀ name f, Defines ms name → first? name ms = some f → f.kind.isExtension = false

/-- A mention may stand behind another one: what comes behind a mention of its type adds
to that type. -/
def Follows (earlier later : Mention) : Prop :=
  earlier.typeName = later.typeName → later.kind.isExtension = true

theorem first?_append (name : String) (ms ns : List Mention) :
    first? name (ms ++ ns) = (first? name ms).or (first? name ns) :=
  List.find?_append

/-- A type has a first mention exactly if it is mentioned. -/
theorem first?_isSome_iff {name : String} {ms : List Mention} :
    (first? name ms).isSome = true ↔ name ∈ ms.map typeName := by
  rw [first?, List.find?_isSome, List.mem_map]
  simp

/-- The name and the kind of a mention decide the kind of the first one. -/
theorem kind_first?_congr (name : String) {ms ns : List Mention} (h : ms.map tag = ns.map tag) :
    (first? name ms).map kind = (first? name ns).map kind := by
  have htag : ∀ ms : List Mention,
      (first? name ms).map kind = ((ms.map tag).find? (·.1 = name)).map Prod.snd := by
    intro ms
    rw [List.find?_map, Option.map_map]
    rfl
  rw [htag, htag, h]

/-- A type that is mentioned has a first mention. -/
theorem exists_first? {name : String} {ms : List Mention} (h : name ∈ ms.map typeName) :
    ∃ m, first? name ms = some m :=
  Option.isSome_iff_exists.1 (first?_isSome_iff.2 h)

theorem mem_of_first? {name : String} {ms : List Mention} {m : Mention}
    (h : first? name ms = some m) : m ∈ ms ∧ m.typeName = name :=
  ⟨List.mem_of_find?_eq_some h, by simpa using List.find?_some h⟩

theorem definitionsFirst_iff {ms : List Mention} :
    DefinitionsFirst ms ↔ ∀ m ∈ ms, m.kind.isExtension = false →
      ∀ f, first? m.typeName ms = some f → f.kind.isExtension = false := by
  constructor
  · intro h m hm hdef f hf
    exact h m.typeName f ⟨m, hm, rfl, hdef⟩ hf
  · rintro h name f ⟨m, hm, rfl, hdef⟩ hf
    exact h m hm hdef f hf

/-- The types that are defined and the kinds of the first mentions decide whether
definitions come first. -/
theorem definitionsFirst_congr {ms ns : List Mention}
    (hdef : ∀ name, Defines ms name ↔ Defines ns name)
    (hkind : ∀ name, (first? name ms).map kind = (first? name ns).map kind) :
    DefinitionsFirst ms ↔ DefinitionsFirst ns := by
  have hfirst : ∀ ms : List Mention, DefinitionsFirst ms ↔
      ∀ name k, Defines ms name → (first? name ms).map kind = some k →
        k.isExtension = false := by
    intro ms
    simp only [DefinitionsFirst, Option.map_eq_some_iff]
    constructor
    · rintro h name k hname ⟨f, hf, rfl⟩
      exact h name f hname hf
    · exact fun h name f hname hf => h name f.kind hname ⟨f, hf, rfl⟩
  simp only [hfirst, hdef, hkind]

/-- Where no type is defined twice, every mention may stand behind those before it exactly
if definitions come first. -/
theorem pairwise_follows_iff {ms : List Mention}
    (hunique : ms.Pairwise fun a b =>
      a.typeName = b.typeName → a.kind.isExtension = true ∨ b.kind.isExtension = true) :
    ms.Pairwise Follows ↔ DefinitionsFirst ms := by
  rw [definitionsFirst_iff]
  induction ms with
  | nil => simp
  | cons a ms ih =>
    obtain ⟨ha, hms⟩ := List.pairwise_cons.1 hunique
    rw [List.pairwise_cons, ih hms]
    constructor
    · -- the first mention of a type is `a` itself, or it is first in the rest
      rintro ⟨hfirst, hrest⟩ m hm hdef f hf
      rw [first?, List.find?_cons] at hf
      by_cases hname : a.typeName = m.typeName
      · simp only [hname, decide_true, Option.some.injEq] at hf
        subst hf
        rcases List.mem_cons.1 hm with rfl | hm
        · exact hdef
        · have := hfirst m hm hname
          rw [hdef] at this
          cases this
      · simp only [hname, decide_false] at hf
        rcases List.mem_cons.1 hm with rfl | hm
        · exact absurd rfl hname
        · exact hrest m hm hdef f hf
    · intro hall
      -- a later definition of the type of `a` would make `a` a second definition of it
      have hstep : ∀ m ∈ ms, m.kind.isExtension = false → a.typeName ≠ m.typeName := by
        intro m hm hdef hname
        have hfirst := hall m (List.mem_cons_of_mem a hm) hdef a (by simp [first?, hname])
        have := ha m hm hname
        rw [hfirst, hdef] at this
        simp at this
      refine ⟨fun m hm hname => ?_, fun m hm hdef f hf => ?_⟩
      · rw [← Bool.not_eq_false]
        exact fun hdef => hstep m hm hdef hname
      · refine hall m (List.mem_cons_of_mem a hm) hdef f ?_
        rw [first?, List.find?_cons_of_neg (by simpa using hstep m hm hdef)]
        exact hf

/-! ## Two sequences of mentions -/

variable {ms ns : List Mention}

/-- What is added in either order is the same. -/
theorem adds_append_comm (ms ns : List Mention) (name : String) (x : Member) :
    Adds (ms ++ ns) name x ↔ Adds (ns ++ ms) name x := by
  simp only [Adds, List.mem_append, or_comm]

/-- What is defined in either order is the same. -/
theorem defines_append_comm (ms ns : List Mention) (name : String) :
    Defines (ms ++ ns) name ↔ Defines (ns ++ ms) name := by
  simp only [Defines, List.mem_append, or_comm]

/-- Both sequences define a type or add to it where they first speak of it, whenever they
both do. -/
def OpenAlike (ms ns : List Mention) : Prop :=
  ∀ name f g, first? name ms = some f → first? name ns = some g →
    f.kind.isExtension = g.kind.isExtension

/-- The first mention in two sequences is a definition if it defines its type in the second
of them. -/
theorem DefinitionsFirst.of_first? (h : DefinitionsFirst (ms ++ ns)) {name : String}
    {f g : Mention} (hf : first? name ms = some f) (hg : g ∈ ms ++ ns)
    (hname : g.typeName = name) (hdef : g.kind.isExtension = false) :
    f.kind.isExtension = false := by
  refine h name f ⟨g, hg, hname, hdef⟩ ?_
  rw [first?_append, hf]
  rfl

/-- **Two sequences.**  Where definitions come first in one order of the two, they do so in
the other exactly if the two open alike. -/
theorem DefinitionsFirst.swap_iff (h : DefinitionsFirst (ms ++ ns)) :
    DefinitionsFirst (ns ++ ms) ↔ OpenAlike ms ns := by
  constructor
  · intro hswap name f g hf hg
    obtain ⟨hfm, hfname⟩ := mem_of_first? hf
    obtain ⟨hgm, hgname⟩ := mem_of_first? hg
    cases hfk : f.kind.isExtension with
    | false => rw [hswap.of_first? hg (List.mem_append_right _ hfm) hfname hfk]
    | true =>
      cases hgk : g.kind.isExtension with
      | false => rw [← hfk, h.of_first? hf (List.mem_append_right _ hgm) hgname hgk]
      | true => rfl
  · intro halike name k hdef hk
    rw [defines_append_comm] at hdef
    rw [first?_append] at hk
    have hfirst : ∀ f, first? name (ms ++ ns) = some f → f.kind.isExtension = false :=
      fun f => h name f hdef
    rw [first?_append] at hfirst
    -- only a type that both sequences speak of is first spoken of elsewhere in the other order
    cases hf : first? name ms with
    | none =>
      rw [hf, Option.none_or] at hfirst
      rw [hf, Option.or_none] at hk
      exact hfirst k hk
    | some f =>
      rw [hf, Option.some_or] at hfirst
      cases hg : first? name ns with
      | none =>
        rw [hf, hg, Option.none_or] at hk
        exact hfirst k hk
      | some g =>
        rw [hg, Option.some_or, Option.some.injEq] at hk
        rw [← hk, ← halike name f g hf hg]
        exact hfirst f rfl

end Mention

/-! ## Mentions in a document -/

namespace Document

/-- What the content of a node adds to its type. -/
def Content.members (c : Content) : List Member :=
  c.interfaces.map (fun n => .interface n.text) ++
    ((fieldsOf? c).getD []).map fun f => .field f.name

/-- A node as a mention of its type. -/
def TypeNode.mention (n : TypeNode) : Mention := ⟨n.name.text, n.kind, n.content.members⟩

/-- The mentions of types in a document, in order. -/
def mentions (ds : List Definition) : List Mention := (typeNodes ds).map TypeNode.mention

@[simp] theorem mentions_concat (ds : List Definition) (d : Definition) :
    mentions (ds ++ [d]) = mentions ds ++ d.typeNode?.toList.map TypeNode.mention := by
  rw [mentions, typeNodes_concat, List.map_append, ← mentions]

theorem typeNames_eq_mentions (ds : List Definition) :
    typeNames ds = (mentions ds).map Mention.typeName := by
  rw [typeNames, mentions, List.map_map]
  rfl

theorem mentions_nodesOf (name : String) (ds : List Definition) :
    (nodesOf name ds).map TypeNode.mention = (mentions ds).filter (·.typeName = name) := by
  rw [nodesOf, mentions, List.filter_map]
  rfl

theorem isExtension_kind (n : TypeNode) : n.kind.isExtension = n.isExtension := by
  rw [TypeNode.kind, TypeNode.isExtension]
  cases n.role <;> rfl

theorem isSome_fieldsOf? (n : TypeNode) :
    (fieldsOf? n.content).isSome = n.kind.hasFields := by
  rw [TypeNode.kind]
  cases n.role <;> cases n.content <;> rfl

/-- A type may stand behind a document exactly if it may stand behind each mention there. -/
theorem repetition?_type_eq_none (ds : List Definition) (n : TypeNode) :
    repetition? ds (.type n) = none ↔ ∀ m ∈ mentions ds, Mention.Follows m n.mention := by
  rw [repetition?, typeNames_eq_mentions, ite_eq_right_iff]
  simp only [Bool.and_eq_true, Bool.not_eq_true', List.contains_iff_mem, List.mem_map,
    reduceCtorEq, imp_false, not_and, not_exists, Mention.Follows, TypeNode.mention,
    isExtension_kind]
  constructor
  · intro h m hm hname
    rw [← Bool.not_eq_false]
    exact fun hdef => h hdef m hm hname
  · intro h hdef m hm hname
    rw [h m hm hname] at hdef
    cases hdef

/-- A document repeats nothing exactly if each mention of a type may stand behind those
before it and the schema is defined at most once. -/
theorem isFresh_iff (ds : List Definition) :
    IsFresh ds ↔ (mentions ds).Pairwise Mention.Follows ∧ (schemaNodes ds).length ≤ 1 := by
  induction ds using List.reverseRecOn with
  | nil => simp [IsFresh, clearAfter_nil, mentions, typeNodes, schemaNodes]
  | append_singleton ds d ih =>
    rw [IsFresh, clearAfter_append, ← IsFresh, ih, clearAfter_cons, List.nil_append,
      schemaNodes_concat, mentions_concat]
    cases d with
    | schema s =>
      rw [repetition?]
      cases h : schemaNodes ds with
      | nil => simp [clearAfter_nil]
      | cons t ts => simp
    | type n =>
      rw [repetition?_type_eq_none, List.pairwise_append]
      simp [clearAfter_nil, and_assoc, and_comm, and_left_comm]
    | directive d => simp [repetition?, clearAfter_nil]
    | aside a => simp [repetition?, clearAfter_nil]

end Document

/-! ## Entries as mentions tell them -/

open Document (Definition Outline)

/-- An entry is what mentions tell of its type: it has the kind of the first one, lists as
its interfaces those that any of them adds, and behind them, if it is an interface itself,
the types that add it to theirs; it has the fields that any of them adds, if it has any. -/
structure TypeEntry.IsTold (r : TypeEntry) (name : String) (ms : List Mention) : Prop where
  kind : ∃ m, Mention.first? name ms = some m ∧ m.kind = r.kind
  interfaces : ∀ i, i ∈ r.interfaces ↔ Mention.Adds ms name (.interface i) ∨
    r.kind.isInterface = true ∧ Mention.Adds ms i (.interface name)
  fields : ∀ f, f ∈ r.fields.map FieldEntry.name ↔
    r.kind.hasFields = true ∧ Mention.Adds ms name (.field f)

/-- A node adds an interface that it declares. -/
theorem Document.Content.interface_mem_members (c : Document.Content) (i : String) :
    .interface i ∈ c.members ↔ i ∈ c.interfaces.map Name.text := by
  simp [members]

/-- A node adds a field that it has. -/
theorem Document.Content.field_mem_members (c : Document.Content) (f : String) :
    .field f ∈ c.members ↔ f ∈ ((fieldsOf? c).getD []).map FieldEntry.name := by
  simp [members]

namespace Document

/-- What is added to a type is added by one of its nodes. -/
theorem adds_mentions_iff (ds : List Definition) (name : String) (x : Member) :
    Mention.Adds (mentions ds) name x ↔ ∃ n ∈ nodesOf name ds, x ∈ n.content.members := by
  constructor
  · rintro ⟨m, hm, hname, hx⟩
    obtain ⟨n, hn, rfl⟩ := List.mem_map.1 hm
    exact ⟨n, List.mem_filter.2 ⟨hn, decide_eq_true hname⟩, hx⟩
  · rintro ⟨n, hn, hx⟩
    obtain ⟨hn, hname⟩ := List.mem_filter.1 hn
    exact ⟨n.mention, List.mem_map_of_mem hn, of_decide_eq_true hname, hx⟩

/-- One type declares another as its interface if a mention of it does. -/
theorem declares_iff (ds : List Definition) (implementor target : String) :
    Declares ds implementor target ↔
      Mention.Adds (mentions ds) implementor (.interface target) := by
  rw [adds_mentions_iff, Declares]
  simp only [Content.interface_mem_members]

end Document

variable {o : Outline} {ds : List Definition} {name : String} {r : TypeEntry} {c : Catalog}

/-- The kind of an entry is that of the first mention of its type. -/
theorem first?_of_entry (h : o.Holds ds) (hr : (entriesOf o).get? name = some r) :
    ∃ m, Mention.first? name (Document.mentions ds) = some m ∧ m.kind = r.kind := by
  obtain ⟨d, -, hnodes, rfl⟩ := get?_entriesOf h hr
  refine ⟨d.primary.mention, ?_, rfl⟩
  rw [Mention.first?, ← List.head?_filter, ← Document.mentions_nodesOf, ← hnodes]
  rfl

/-- An entry declares the interfaces that the mentions of its type add. -/
theorem mem_interfaces_entry (h : o.Holds ds) (hr : (entriesOf o).get? name = some r)
    (i : String) :
    i ∈ r.interfaces ↔ Mention.Adds (Document.mentions ds) name (.interface i) := by
  obtain ⟨d, -, hnodes, rfl⟩ := get?_entriesOf h hr
  rw [← Document.declares_iff, Document.Declares, ← hnodes]
  exact List.mem_flatMap

/-- An entry that has fields has those that the mentions of its type add. -/
theorem mem_fields_entry (h : o.Holds ds) (hr : (entriesOf o).get? name = some r)
    (f : String) :
    f ∈ r.fields.map FieldEntry.name ↔
      r.kind.hasFields = true ∧ Mention.Adds (Document.mentions ds) name (.field f) := by
  obtain ⟨d, -, hnodes, rfl⟩ := get?_entriesOf h hr
  rw [Document.adds_mentions_iff, ← hnodes]
  simp only [Document.Content.field_mem_members]
  show f ∈ (gatherFor fieldsOf? d).map FieldEntry.name ↔ d.primary.kind.hasFields = true ∧ _
  rw [← Document.isSome_fieldsOf?, gatherFor]
  split
  · next hsome =>
    simp only [hsome, true_and, gather, List.mem_map, List.mem_flatten, List.mem_filterMap]
    constructor
    · rintro ⟨x, ⟨xs, ⟨n, hn, hxs⟩, hx⟩, rfl⟩
      exact ⟨n, hn, x, by rw [hxs]; exact hx, rfl⟩
    · rintro ⟨n, hn, x, hx, rfl⟩
      cases hxs : fieldsOf? n.content with
      | none => simp [hxs] at hx
      | some xs => exact ⟨x, ⟨xs, ⟨n, hn, hxs⟩, by simpa [hxs] using hx⟩, rfl⟩
  · next hnone => simp [hnone]

/-! ## Catalogs as mentions tell them -/

/-- The types of an outlined document are those that are mentioned. -/
theorem mem_keys_typesOf (h : o.Holds ds) (name : String) :
    name ∈ (Catalog.typesOf o).keys ↔ name ∈ (Document.mentions ds).map Mention.typeName := by
  rw [Catalog.typesOf, linkImplementors, Link.keys_foldl_apply, entriesOf,
    Table.keys_mapWithKey, h.keys, List.mem_eraseDups, Document.typeNames_eq_mentions]

/-- The types of a catalog are those that are mentioned. -/
theorem Catalog.mem_keys_iff (h : Catalog.ofDefinitions ds = .ok c) (name : String) :
    name ∈ c.types.keys ↔ name ∈ (Document.mentions ds).map Mention.typeName := by
  obtain ⟨o, ho, htypes, -⟩ := Catalog.ofDefinitions_eq_ok h
  rw [htypes]
  exact mem_keys_typesOf (Outline.holds_of_ofDefinitions ho).2 name

/-- **Entries.**  Every entry of a catalog is what the mentions of types tell. -/
theorem Catalog.isTold_of_get? (h : Catalog.ofDefinitions ds = .ok c)
    (hr : c.get? name = some r) : r.IsTold name (Document.mentions ds) := by
  obtain ⟨o, ho, htypes, -⟩ := Catalog.ofDefinitions_eq_ok h
  have hholds := (Outline.holds_of_ofDefinitions ho).2
  rw [Catalog.get?, htypes, Catalog.typesOf, get?_linkImplementors, Option.map_eq_some_iff] at hr
  obtain ⟨s, hs, rfl⟩ := hr
  have hkind := first?_of_entry hholds hs
  have hfields := mem_fields_entry hholds hs
  refine ⟨hkind, fun i => ?_, hfields⟩
  -- what linking adds to an interface are the types that mention it as theirs
  have himplementors : i ∈ implementorsOf (entriesOf o) name ↔
      Mention.Adds (Document.mentions ds) i (.interface name) := by
    rw [mem_implementorsOf, ← Document.declares_iff]
    constructor
    · rintro ⟨t, ht, hname⟩
      exact (Document.declares_iff _ _ _).2 ((mem_interfaces_entry hholds ht name).1 hname)
    · exact exists_entry_of_declares hholds
  show i ∈ (if s.kind.isInterface then _ else _) ↔ _ ∨ s.kind.isInterface = true ∧ _
  split
  · next hk =>
    rw [List.mem_append, mem_interfaces_entry hholds hs, himplementors]
    simp [hk]
  · next hk =>
    rw [mem_interfaces_entry hholds hs]
    simp [hk]

/-- An outlined document is catalogued exactly if its schema, in which no operation comes
twice, starts from types of the document. -/
theorem Catalog.exists_ofOutline_iff (h : o.Holds ds)
    (hops : ∀ s ∈ Document.schemaNodes ds,
      (s.operations.map Document.RootOperation.operation).Nodup) :
    (∃ c, Catalog.ofOutline o = .ok c) ↔ ∀ s ∈ Document.schemaNodes ds, ∀ e ∈ s.operations,
      typeNameOf e ∈ (Document.mentions ds).map Mention.typeName := by
  rw [← h.schema] at hops ⊢
  rw [Catalog.ofOutline]
  cases hs : o.schema with
  | none => simp
  | some s =>
    rw [hs] at hops
    have hbound : (∃ b, Bindings.ofRoots (Catalog.typesOf o) s.operations = .ok b) ↔ _ :=
      exists_ofRoots_iff (hops s (by simp))
    simp only [Table.contains_iff, mem_keys_typesOf h] at hbound
    simp only [Option.toList_some, List.mem_singleton, forall_eq]
    rw [← hbound]
    cases Bindings.ofRoots (Catalog.typesOf o) s.operations <;> simp

/-- Definitions are catalogued exactly if they repeat nothing and the schema that they
define, in which no operation comes twice, starts from types that are mentioned. -/
theorem Catalog.exists_ofDefinitions_iff
    (hops : ∀ s ∈ Document.schemaNodes ds,
      (s.operations.map Document.RootOperation.operation).Nodup) :
    (∃ c, Catalog.ofDefinitions ds = .ok c) ↔
      Document.IsFresh ds ∧ ∀ s ∈ Document.schemaNodes ds, ∀ e ∈ s.operations,
        typeNameOf e ∈ (Document.mentions ds).map Mention.typeName := by
  have hfresh : (∃ o, Outline.ofDefinitions ds = .ok o) ↔ Document.IsFresh ds :=
    Outline.heeds_repetition.exists_run_iff Outline.holds_empty
  rw [← hfresh, Catalog.ofDefinitions]
  cases ho : Outline.ofDefinitions ds with
  | error e => simp
  | ok o =>
    rw [← Catalog.exists_ofOutline_iff (Outline.holds_of_ofDefinitions ho).2 hops]
    cases hout : Catalog.ofOutline o <;> simp [hout]

end SchemaCatalog

/-
# Mentions in fragments

The definitions of fragments mention types as those of documents do.  Printing them and
reading them back keeps every mention.  Merging them keeps the first mention of each type,
and of what is added to a type it loses nothing and makes up nothing.
-/
import SchemaCatalog.Proofs.Fragments
import SchemaCatalog.Proofs.Harmony
import SchemaCatalog.Proofs.MemberUnions
import SchemaCatalog.Proofs.Mentions
import SchemaCatalog.Proofs.RereadDefinitions

namespace SchemaCatalog.Fragment

/-! ## Mentions -/

/-- What the content of a definition adds to its type. -/
def Content.members : Content → List Member
  | .interface is fs | .object is fs =>
    (is.map Name.text).map .interface ++ (fs.map (·.name.text)).map .field
  | .inputObject fs => (fs.map (·.name.text)).map .field
  | .enum _ | .scalar | .union _ => []

/-- The definition of a type as a mention of it. -/
def TypeDefinition.mention (t : TypeDefinition) : Mention :=
  ⟨t.name.text, .definition t.content.shape, t.content.members⟩

/-- An addition to a type as a mention of it. -/
def TypeExtension.mention (e : TypeExtension) : Mention :=
  ⟨e.name.text, .extension e.content.shape, e.content.members⟩

/-- A definition as a mention of a type, if it speaks of one. -/
def Definition.mention? : Definition → Option Mention
  | .type t => some t.mention
  | .extension e => some e.mention
  | .schema _ | .directive _ => none

/-- The mentions of types in some definitions, in order. -/
def mentions (ds : List Definition) : List Mention := ds.filterMap Definition.mention?

@[simp] theorem mentions_append (ds es : List Definition) :
    mentions (ds ++ es) = mentions ds ++ mentions es :=
  List.filterMap_append

/-! ## Reading back -/

/-- Where each item keeps what is taken from it, a list of items does. -/
theorem filterMap_of_mapM {α β γ : Type} {f : β → Option α} {p : β → Option γ}
    {q : α → Option γ} (h : ∀ x y, f x = some y → q y = p x) {xs : List β} {ys : List α}
    (hm : xs.mapM f = some ys) : ys.filterMap q = xs.filterMap p := by
  induction xs generalizing ys with
  | nil =>
    cases hm
    rfl
  | cons x xs ih =>
    rw [Rule.mapM_cons_option, Option.bind_eq_some_iff] at hm
    obtain ⟨y, hy, hm⟩ := hm
    obtain ⟨zs, hzs, rfl⟩ := Option.map_eq_some_iff.1 hm
    rw [List.filterMap_cons, List.filterMap_cons, h x y hy, ih hzs]

/-- Items that are read one by one keep what each of them keeps. -/
theorem map_of_mapM {α β γ : Type} {f : β → Option α} {p : β → γ} {q : α → γ}
    (h : ∀ x y, f x = some y → q y = p x) {xs : List β} {ys : List α}
    (hm : xs.mapM f = some ys) : ys.map q = xs.map p := by
  -- taking something from every item is taking it from those where there is something
  have := filterMap_of_mapM (p := fun x => some (p x)) (q := fun y => some (q y))
    (fun x y hxy => congrArg some (h x y hxy)) hm
  simpa using this

/-- Members between braces keep what each of them keeps. -/
theorem map_of_rereadBlock? {α β γ : Type} {read? : β → Option α} {f : α → γ} {g : β → γ}
    (h : ∀ x y, read? x = some y → f y = g x) {xs : List β} {ys : Option (List α)}
    (hm : rereadBlock? read? xs = some ys) : (ys.getD []).map f = xs.map g := by
  rw [rereadBlock?] at hm
  split at hm
  · next hempty =>
    cases hm
    rw [List.isEmpty_iff.1 hempty]
    rfl
  · obtain ⟨zs, hzs, rfl⟩ := Option.map_eq_some_iff.1 hm
    exact map_of_mapM h hzs

theorem name_of_reread_field {indent : Nat} {f : Field} {g : Document.Field}
    (h : f.reread? indent = some g) : g.name = f.name := by
  simp only [Field.reread?, Option.bind_eq_some_iff, Option.map_eq_some_iff] at h
  obtain ⟨args, -, t, -, ds, -, rfl⟩ := h
  rfl

theorem name_of_reread_inputValue {indent : Nat} {v : InputValue} {w : Document.InputValue}
    (h : v.reread? indent = some w) : w.name = v.name := by
  simp only [InputValue.reread?, Option.bind_eq_some_iff, Option.map_eq_some_iff] at h
  obtain ⟨t, -, d, -, ds, -, rfl⟩ := h
  rfl

@[simp] theorem getD_declared? (ns : List Name) : (declared? ns).getD [] = ns := by
  rw [declared?]
  cases ns <;> rfl

theorem content_of_fieldsBody {ds : List Directive} {is : List Name} {fs : List Field}
    {make : List Name → List Document.Field → Document.Content} {b : Document.Body}
    (h : rereadBody?.rereadFieldsBody? ds is fs make = some b) :
    ∃ gs : List Document.Field, b.content = make is gs ∧
      gs.map (fun f => Member.field f.name.text) = fs.map fun f => Member.field f.name.text := by
  simp only [rereadBody?.rereadFieldsBody?, Option.bind_eq_some_iff, Option.map_eq_some_iff,
    getD_declared?] at h
  obtain ⟨ds', -, gs, hgs, rfl⟩ := h
  refine ⟨gs.getD [], rfl, map_of_rereadBlock? (fun f g hfg => ?_) hgs⟩
  rw [name_of_reread_field hfg]

/-- The body of a type is read with its shape and with all that it adds. -/
theorem content_of_rereadBody? {ds : List Directive} {c : Content} {b : Document.Body}
    (h : rereadBody? ds c = some b) :
    b.content.shape = c.shape ∧ b.content.members = c.members := by
  cases c with
  | enum vs =>
    simp only [rereadBody?, Option.bind_eq_some_iff, Option.map_eq_some_iff] at h
    obtain ⟨ds', -, ws, -, rfl⟩ := h
    exact ⟨rfl, rfl⟩
  | inputObject fs =>
    simp only [rereadBody?, Option.bind_eq_some_iff, Option.map_eq_some_iff] at h
    obtain ⟨ds', -, gs, hgs, rfl⟩ := h
    have hfields : (gs.getD []).map (fun f => Member.field f.name.text) =
        fs.map fun f => Member.field f.name.text := by
      refine map_of_rereadBlock? (fun f g hfg => ?_) hgs
      rw [name_of_reread_inputValue hfg]
    refine ⟨rfl, ?_⟩
    simpa [Document.Content.members, Document.Content.interfaces, Content.members, fieldsOf?,
      Function.comp_def, FieldEntry.ofInputValue] using hfields
  | interface is fs =>
    obtain ⟨gs, hcontent, hfields⟩ := content_of_fieldsBody h
    rw [hcontent]
    refine ⟨rfl, ?_⟩
    simpa [Document.Content.members, Document.Content.interfaces, Content.members, fieldsOf?,
      Function.comp_def, FieldEntry.ofField] using hfields
  | object is fs =>
    obtain ⟨gs, hcontent, hfields⟩ := content_of_fieldsBody h
    rw [hcontent]
    refine ⟨rfl, ?_⟩
    simpa [Document.Content.members, Document.Content.interfaces, Content.members, fieldsOf?,
      Function.comp_def, FieldEntry.ofField] using hfields
  | scalar =>
    simp only [rereadBody?, Option.map_eq_some_iff] at h
    obtain ⟨ds', -, rfl⟩ := h
    exact ⟨rfl, rfl⟩
  | union ms =>
    simp only [rereadBody?, Option.map_eq_some_iff] at h
    obtain ⟨ds', -, rfl⟩ := h
    exact ⟨rfl, rfl⟩

/-- The operations of a schema as a document lists them. -/
def SchemaDefinition.operations (s : SchemaDefinition) : List Document.RootOperation :=
  s.roots.map fun r => ⟨r.1, some r.2⟩

section

variable {e : Document.Definition}

theorem SchemaDefinition.eq_of_reread? {s : SchemaDefinition} (h : s.reread? = some e) :
    ∃ ds, e = .schema ⟨none, ds, s.operations⟩ := by
  simp only [reread?, Option.ite_none_left_eq_some, Option.map_eq_some_iff] at h
  obtain ⟨-, ds, -, rfl⟩ := h
  exact ⟨ds, rfl⟩

theorem TypeDefinition.eq_of_reread? {t : TypeDefinition} (h : t.reread? = some e) :
    ∃ d b, rereadBody? t.directives t.content = some b ∧
      e = .type ⟨.definition d, t.name, b.directives, b.content⟩ := by
  simp only [reread?, Option.map_eq_some_iff] at h
  obtain ⟨b, hb, rfl⟩ := h
  exact ⟨_, b, hb, rfl⟩

theorem TypeExtension.eq_of_reread? {t : TypeExtension} (h : t.reread? = some e) :
    ∃ b, rereadBody? t.directives t.content = some b ∧
      e = .type ⟨.extension, t.name, b.directives, b.content⟩ := by
  simp only [reread?, Option.bind_eq_some_iff, Option.ite_none_right_eq_some] at h
  obtain ⟨b, hb, -, h⟩ := h
  cases h
  exact ⟨b, hb, rfl⟩

theorem DirectiveDefinition.eq_of_reread? {d : DirectiveDefinition} (h : d.reread? = some e) :
    ∃ n, e = .directive n := by
  simp only [reread?, Option.bind_eq_some_iff, Option.ite_none_left_eq_some,
    Option.map_eq_some_iff] at h
  obtain ⟨args, -, -, places, -, rfl⟩ := h
  exact ⟨_, rfl⟩

/-- A definition is read back with what it says of its type. -/
theorem mention_of_reread? {d : Definition} (h : d.reread? = some e) :
    e.typeNode?.map Document.TypeNode.mention = d.mention? := by
  cases d with
  | schema s =>
    obtain ⟨ds, rfl⟩ := SchemaDefinition.eq_of_reread? h
    rfl
  | type t =>
    obtain ⟨d, b, hb, rfl⟩ := TypeDefinition.eq_of_reread? h
    obtain ⟨hshape, hmembers⟩ := content_of_rereadBody? hb
    simp [Document.TypeNode.mention, Document.TypeNode.kind, Definition.mention?,
      TypeDefinition.mention, hshape, hmembers]
  | extension t =>
    obtain ⟨b, hb, rfl⟩ := TypeExtension.eq_of_reread? h
    obtain ⟨hshape, hmembers⟩ := content_of_rereadBody? hb
    simp [Document.TypeNode.mention, Document.TypeNode.kind, Definition.mention?,
      TypeExtension.mention, hshape, hmembers]
  | directive d =>
    obtain ⟨n, rfl⟩ := DirectiveDefinition.eq_of_reread? h
    rfl

/-- A definition of the schema is read back with its operations, and nothing else is read as
one. -/
theorem operations_of_reread? {d : Definition} (h : d.reread? = some e) :
    e.schemaNode?.map Document.SchemaNode.operations =
      d.schema?.map SchemaDefinition.operations := by
  cases d with
  | schema s =>
    obtain ⟨ds, rfl⟩ := SchemaDefinition.eq_of_reread? h
    rfl
  | type t =>
    obtain ⟨d, b, -, rfl⟩ := TypeDefinition.eq_of_reread? h
    rfl
  | extension t =>
    obtain ⟨b, -, rfl⟩ := TypeExtension.eq_of_reread? h
    rfl
  | directive d =>
    obtain ⟨n, rfl⟩ := DirectiveDefinition.eq_of_reread? h
    rfl

end

variable {ms : List Definition} {ds : List Document.Definition}

/-- Definitions are read back with all their mentions of types. -/
theorem mentions_of_mapM (h : ms.mapM Definition.reread? = some ds) :
    Document.mentions ds = mentions ms := by
  rw [Document.mentions, Document.typeNodes, List.map_filterMap]
  exact filterMap_of_mapM (fun _ _ => mention_of_reread?) h

/-- The definitions of the schema are read back with all their operations. -/
theorem operations_of_mapM (h : ms.mapM Definition.reread? = some ds) :
    (Document.schemaNodes ds).map Document.SchemaNode.operations =
      (schemaDefinitions ms).map SchemaDefinition.operations := by
  rw [Document.schemaNodes, schemaDefinitions, List.map_filterMap, List.map_filterMap]
  exact filterMap_of_mapM (fun _ _ => operations_of_reread?) h

/-- A schema lists no operation twice. -/
theorem SchemaDefinition.nodup_operations (s : SchemaDefinition) :
    (s.operations.map Document.RootOperation.operation).Nodup := by
  obtain ⟨ds, query, mutation, subscription⟩ := s
  cases query <;> cases mutation <;> cases subscription <;> simp [operations, roots, root]

/-- What a schema lists are the types that its operations start from. -/
theorem SchemaDefinition.forall_operations_iff (s : SchemaDefinition) (P : String → Prop) :
    (∀ e ∈ s.operations, P (typeNameOf e)) ↔ ∀ o n, s.root o = some n → P n.text := by
  have hroots : ∀ o n, (o, n) ∈ s.roots ↔ s.root o = some n := by
    intro o n
    cases o <;> simp [roots]
  constructor
  · intro h o n hn
    exact h ⟨o, some n⟩ (List.mem_map.2 ⟨(o, n), (hroots o n).2 hn, rfl⟩)
  · rintro h e he
    obtain ⟨⟨o, n⟩, hn, rfl⟩ := List.mem_map.1 he
    exact h o n ((hroots o n).1 hn)

/-! ## Merging -/

/-- A type that is defined is mentioned. -/
theorem Definition.eq_type_of_subject? {d : Definition} {name : String}
    (h : d.subject? = some (.type name)) : ∃ t, d = .type t ∧ t.name.text = name := by
  cases d with
  | type t => exact ⟨t, rfl, by simpa [subject?] using h⟩
  | schema | directive | extension => simp [subject?] at h

/-- A definition of a known type is not the first to mention it. -/
theorem first?_concat_of_known {ds : List Definition} {d : Definition}
    (hd : isKnown ds d = true) (name : String) :
    Mention.first? name (mentions (ds ++ [d])) = Mention.first? name (mentions ds) := by
  rw [mentions_append, Mention.first?_append]
  cases d with
  | type t =>
    obtain ⟨e, he, hs⟩ := (isKnown_iff (d := .type t) rfl).1 hd
    obtain ⟨u, rfl, hu⟩ := Definition.eq_type_of_subject? hs
    by_cases hname : t.name.text = name
    · -- the type was mentioned where it was defined before, so a first mention was found there
      have hmem : name ∈ (mentions ds).map Mention.typeName :=
        List.mem_map.2 ⟨u.mention, List.mem_filterMap.2 ⟨_, he, rfl⟩, hu.trans hname⟩
      obtain ⟨m, hm⟩ := Mention.exists_first? hmem
      rw [hm]
      rfl
    · have hnone : Mention.first? name (mentions [.type t]) = none := by
        simp [Mention.first?, mentions, Definition.mention?, TypeDefinition.mention, hname]
      rw [hnone, Option.or_none]
  | schema s => exact Option.or_none
  | directive d => exact Option.or_none
  | extension e =>
    rw [isKnown_of_subject?_eq_none rfl] at hd
    cases hd

/-- Leaders begin to speak of a type as all definitions do. -/
theorem first?_mentions_leaders (name : String) (ds : List Definition) :
    Mention.first? name (mentions (leaders ds)) = Mention.first? name (mentions ds) := by
  induction ds using List.reverseRecOn with
  | nil => rfl
  | append_singleton ds d ih =>
    rw [leaders_concat_eq]
    cases hknown : isKnown ds d with
    | false =>
      rw [if_neg (by simp), mentions_append, mentions_append, Mention.first?_append,
        Mention.first?_append, ih]
    | true => rw [if_pos rfl, List.append_nil, first?_concat_of_known hknown, ih]

/-- A combined definition mentions its type as its first one does, and may add more. -/
theorem tag_combined (ds : List Definition) (e : Definition) :
    (combined ds e).mention?.map Mention.tag = e.mention?.map Mention.tag := by
  cases e with
  | type t =>
    obtain ⟨hname, hshape⟩ := foldl_absorb_type t (typeDefinitions t.name.text ds).tail
    rw [combined_type]
    simp [Definition.mention?, TypeDefinition.mention, Mention.tag, hname, hshape]
  | schema s => rw [combined_schema]; rfl
  | directive d => rw [combined_directive]
  | extension e => rfl

/-- **First mentions.**  Merging keeps the kind of the first mention of each type. -/
theorem kind_first?_merged (name : String) (ds : List Definition) :
    (Mention.first? name (mentions (merged ds))).map Mention.kind =
      (Mention.first? name (mentions ds)).map Mention.kind := by
  rw [← first?_mentions_leaders name ds]
  refine Mention.kind_first?_congr name ?_
  rw [mentions, mentions, merged, List.filterMap_map, List.map_filterMap, List.map_filterMap]
  exact List.filterMap_congr fun e _ => tag_combined ds e

/-- Merging keeps the names of the types that are mentioned. -/
theorem mem_typeNames_merged_iff (name : String) (ds : List Definition) :
    name ∈ (mentions (merged ds)).map Mention.typeName ↔
      name ∈ (mentions ds).map Mention.typeName := by
  rw [← Mention.first?_isSome_iff, ← Mention.first?_isSome_iff, ← Option.isSome_map,
    kind_first?_merged, Option.isSome_map]

/-- What mentions a type defines it unless it adds to it. -/
theorem subject?_of_mention? {d : Definition} {m : Mention} (h : d.mention? = some m) :
    d.subject? = if m.kind.isExtension then none else some (.type m.typeName) := by
  cases d with
  | type t =>
    cases h
    rfl
  | extension e =>
    cases h
    rfl
  | schema | directive => cases h

/-- A type is defined if a definition has it as its subject. -/
theorem defines_iff (ds : List Definition) (name : String) :
    Mention.Defines (mentions ds) name ↔ .type name ∈ ds.filterMap Definition.subject? := by
  constructor
  · rintro ⟨m, hm, rfl, hdef⟩
    obtain ⟨d, hd, hdm⟩ := List.mem_filterMap.1 hm
    refine List.mem_filterMap.2 ⟨d, hd, ?_⟩
    rw [subject?_of_mention? hdm, hdef]
    rfl
  · intro h
    obtain ⟨d, hd, hs⟩ := List.mem_filterMap.1 h
    obtain ⟨t, rfl, hname⟩ := Definition.eq_type_of_subject? hs
    exact ⟨t.mention, List.mem_filterMap.2 ⟨_, hd, rfl⟩, hname, rfl⟩

/-- Merging keeps the types that are defined. -/
theorem defines_merged_iff (ds : List Definition) (name : String) :
    Mention.Defines (mentions (merged ds)) name ↔ Mention.Defines (mentions ds) name := by
  rw [defines_iff, defines_iff, subjects_merged, List.mem_eraseDups]

/-- Merging keeps whether definitions come first. -/
theorem definitionsFirst_merged_iff (ds : List Definition) :
    Mention.DefinitionsFirst (mentions (merged ds)) ↔
      Mention.DefinitionsFirst (mentions ds) :=
  Mention.definitionsFirst_congr (defines_merged_iff ds) fun name => kind_first?_merged name ds

/-- No two of the definitions that are merged define the same thing. -/
theorem pairwise_merged (ds : List Definition) :
    (merged ds).Pairwise fun a b => a.subject? = b.subject? → a.subject? = none := by
  rw [merged, List.pairwise_map]
  simpa only [subject?_combined] using pairwise_leaders ds

/-- No type is defined twice once all is merged. -/
theorem pairwise_mentions_merged (ds : List Definition) :
    (mentions (merged ds)).Pairwise fun a b =>
      a.typeName = b.typeName → a.kind.isExtension = true ∨ b.kind.isExtension = true := by
  rw [mentions, List.pairwise_filterMap]
  refine (pairwise_merged ds).imp fun {a b} hab m hm n hn hname => ?_
  rw [subject?_of_mention? hm, subject?_of_mention? hn, hname] at hab
  cases hmk : m.kind.isExtension with
  | true => exact Or.inl rfl
  | false =>
    cases hnk : n.kind.isExtension with
    | true => exact Or.inr rfl
    | false => simp [hmk, hnk] at hab

/-! ## What is added -/

/-- A union has the keys of both lists. -/
theorem mem_keys_unionBy {α β : Type} [DecidableEq β] (key : α → β) (xs ys : List α) (k : β) :
    k ∈ (unionBy key xs ys).map key ↔ k ∈ xs.map key ∨ k ∈ ys.map key := by
  simpa using (isUnionOf_unionBy key xs [ys]).keys k

/-- What is made of the keys of a union is made of the keys of either list. -/
theorem mem_map_keys_unionBy {α β γ : Type} [DecidableEq β] (key : α → β) (f : β → γ)
    (xs ys : List α) (x : γ) :
    x ∈ ((unionBy key xs ys).map key).map f ↔
      x ∈ (xs.map key).map f ∨ x ∈ (ys.map key).map f := by
  rw [List.mem_map, List.mem_map, List.mem_map, ← exists_or]
  simp only [mem_keys_unionBy, or_and_right]

/-- What contents of one shape add together is what either of them adds. -/
theorem Content.mem_members_absorb {c later : Content} (h : c.shape = later.shape)
    (x : Member) : x ∈ (c.absorb later).members ↔ x ∈ c.members ∨ x ∈ later.members := by
  have hfields : ∀ (is js : List Name) (fs gs : List Field),
      x ∈ ((mergeNames is js).map Name.text).map Member.interface ++
          ((unionBy (fun f : Field => f.name.text) fs gs).map (·.name.text)).map .field ↔
        x ∈ (is.map Name.text).map Member.interface ++ (fs.map (·.name.text)).map .field ∨
          x ∈ (js.map Name.text).map Member.interface ++ (gs.map (·.name.text)).map .field := by
    intro is js fs gs
    rw [List.mem_append, List.mem_append, List.mem_append, mergeNames, mem_map_keys_unionBy,
      mem_map_keys_unionBy]
    exact or_or_or_comm
  -- contents of different shapes are left out here, since their shapes do not agree
  cases c <;> cases later <;> cases h
  case object.object is fs js gs => exact hfields is js fs gs
  case interface.interface is fs js gs => exact hfields is js fs gs
  case inputObject.inputObject fs gs =>
    exact mem_map_keys_unionBy (fun f : InputValue => f.name.text) Member.field fs gs x
  case enum.enum vs ws => simp [absorb, merge?, members]
  case scalar.scalar => simp [absorb, merge?, members]
  case union.union ms ns => simp [absorb, merge?, members]

/-- What definitions of one shape add together is what any of them adds. -/
theorem mem_members_foldl_absorb {first : TypeDefinition} {later : List TypeDefinition}
    (h : ∀ t ∈ later, t.content.shape = first.content.shape) (x : Member) :
    x ∈ (later.foldl TypeDefinition.absorb first).content.members ↔
      ∃ t ∈ first :: later, x ∈ t.content.members := by
  induction later generalizing first with
  | nil => simp
  | cons u later ih =>
    have hu : first.content.shape = u.content.shape := (h u (by simp)).symm
    have hlater : ∀ t ∈ later, t.content.shape = (first.absorb u).content.shape := by
      intro t ht
      rw [TypeDefinition.shape_absorb]
      exact h t (List.mem_cons_of_mem u ht)
    have habsorb : x ∈ (first.absorb u).content.members ↔
        x ∈ first.content.members ∨ x ∈ u.content.members :=
      Content.mem_members_absorb hu x
    rw [List.foldl_cons, ih hlater]
    simp only [List.exists_mem_cons_iff, habsorb, or_assoc]

/-- What is added to a type stands in its definitions and in the additions to it. -/
theorem adds_iff (ds : List Definition) (name : String) (x : Member) :
    Mention.Adds (mentions ds) name x ↔
      (∃ t ∈ typeDefinitions name ds, x ∈ t.content.members) ∨
        ∃ e ∈ typeExtensions ds, e.name.text = name ∧ x ∈ e.content.members := by
  constructor
  · rintro ⟨m, hm, hname, hx⟩
    obtain ⟨d, hd, hdm⟩ := List.mem_filterMap.1 hm
    cases d with
    | type t =>
      cases hdm
      exact Or.inl ⟨t, mem_typeDefinitions_iff.2 ⟨hd, hname⟩, hx⟩
    | extension e =>
      cases hdm
      exact Or.inr ⟨e, List.mem_filterMap.2 ⟨_, hd, rfl⟩, hname, hx⟩
    | schema | directive => cases hdm
  · rintro (⟨t, ht, hx⟩ | ⟨e, he, hname, hx⟩)
    · obtain ⟨hd, hname⟩ := mem_typeDefinitions_iff.1 ht
      exact ⟨t.mention, List.mem_filterMap.2 ⟨_, hd, rfl⟩, hname, hx⟩
    · obtain ⟨d, hd, hde⟩ := List.mem_filterMap.1 he
      cases d with
      | extension u =>
        cases hde
        exact ⟨e.mention, List.mem_filterMap.2 ⟨_, hd, rfl⟩, hname, hx⟩
      | type | schema | directive => cases hde

/-- **Members.**  Merging loses nothing of what is added to a type and makes up nothing. -/
theorem adds_merged_iff {ds : List Definition} (h : IsConsistent ds) (name : String)
    (x : Member) :
    Mention.Adds (mentions (merged ds)) name x ↔ Mention.Adds (mentions ds) name x := by
  have hmembers : ∀ t ∈ typeDefinitions name (merged ds),
      x ∈ t.content.members ↔ ∃ u ∈ typeDefinitions name ds, x ∈ u.content.members := by
    intro t ht
    obtain ⟨hd, rfl⟩ := mem_typeDefinitions_iff.1 ht
    obtain ⟨first, later, hall, hfold⟩ := type_of_mem_merged hd
    have hmem : ∀ u ∈ first :: later, .type u ∈ ds ∧ u.name.text = t.name.text := fun u hu =>
      mem_typeDefinitions_iff.1 (hall ▸ hu)
    have hshape : ∀ u ∈ later, u.content.shape = first.content.shape := by
      intro u hu
      obtain ⟨hud, hun⟩ := hmem u (List.mem_cons_of_mem first hu)
      obtain ⟨hfd, hfn⟩ := hmem first List.mem_cons_self
      exact h.shapes u first hud hfd (hun.trans hfn.symm)
    rw [hall, hfold, mem_members_foldl_absorb hshape]
  rw [adds_iff, adds_iff, typeExtensions_merged]
  refine or_congr_left ?_
  constructor
  · rintro ⟨t, ht, hx⟩
    exact (hmembers t ht).1 hx
  · rintro ⟨u, hu, hx⟩
    obtain ⟨hd, hname⟩ := mem_typeDefinitions_iff.1 hu
    -- a type that is defined is still defined when all is merged, by what its definitions come to
    have hdefined : Mention.Defines (mentions (merged ds)) name :=
      (defines_merged_iff ds name).2 ⟨u.mention, List.mem_filterMap.2 ⟨_, hd, rfl⟩, hname, rfl⟩
    obtain ⟨d, hd, hs⟩ := List.mem_filterMap.1 ((defines_iff _ _).1 hdefined)
    obtain ⟨t, rfl, hname⟩ := Definition.eq_type_of_subject? hs
    have ht : t ∈ typeDefinitions name (merged ds) := mem_typeDefinitions_iff.2 ⟨hd, hname⟩
    exact ⟨t, ht, (hmembers t ht).2 ⟨u, hu, hx⟩⟩

/-! ## The schema -/

/-- All operations of a schema start from types that are mentioned. -/
def RootsMentioned (ds : List Definition) : Prop :=
  ∀ s, .schema s ∈ ds → ∀ o n, s.root o = some n → n.text ∈ (mentions ds).map Mention.typeName

/-- Merging keeps whether the operations start from types that are mentioned. -/
theorem rootsMentioned_merged_iff {ds : List Definition} (h : IsConsistent ds) :
    RootsMentioned (merged ds) ↔ RootsMentioned ds := by
  simp only [RootsMentioned, mem_typeNames_merged_iff]
  constructor
  · intro hroots s hs o n hn
    have hschema : Subject.schema ∈ (merged ds).filterMap Definition.subject? := by
      rw [subjects_merged, List.mem_eraseDups]
      exact List.mem_filterMap.2 ⟨_, hs, rfl⟩
    obtain ⟨d, hd, hsubject⟩ := List.mem_filterMap.1 hschema
    cases d with
    | schema u =>
      -- the schema that all come to starts from a type of the same name
      obtain ⟨b, hb⟩ := exists_boundRoot hs hn
      obtain ⟨v, hv, hvb⟩ := exists_of_boundRoot hb
      rw [h.roots s v hs hv o n b hn hvb]
      exact hroots u hd o b ((schema_of_mem_merged hd o).trans hb)
    | type | directive | extension => cases hsubject
  · intro hroots s hs o n hn
    rw [schema_of_mem_merged hs] at hn
    obtain ⟨u, hu, hun⟩ := exists_of_boundRoot hn
    exact hroots u hu o n hun

/-- The schema is defined at most once when all is merged. -/
theorem length_schemaDefinitions_merged (ds : List Definition) :
    (schemaDefinitions (merged ds)).length ≤ 1 := by
  have hpairs : (schemaDefinitions (merged ds)).Pairwise fun _ _ => False := by
    rw [schemaDefinitions, List.pairwise_filterMap]
    refine (pairwise_merged ds).imp fun {a b} hab s hs t ht => ?_
    cases a with
    | schema s =>
      cases b with
      | schema t => cases hab rfl
      | type | directive | extension => cases ht
    | type | directive | extension => cases hs
  cases hall : schemaDefinitions (merged ds) with
  | nil => simp
  | cons s ss =>
    cases ss with
    | nil => simp
    | cons t ss =>
      rw [hall] at hpairs
      exact (List.rel_of_pairwise_cons hpairs List.mem_cons_self).elim

end SchemaCatalog.Fragment

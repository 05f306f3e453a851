/-
# Schemas as parsed documents

A text can be catalogued as it is, or it can be parsed first, and what was parsed is then printed,
parsed by other rules and catalogued.  The two ways lead to the same catalog apart from the
descriptions of types, and the second one fails where a value cannot be printed.
-/
import SchemaCatalog.Proofs.BareCatalogs
import SchemaCatalog.Proofs.MergedTexts
import SchemaCatalog.Proofs.SharedDocuments

namespace SchemaCatalog

namespace Fragment

/-! ## Values that can be printed -/

/-- A value in which no number is the negative infinity. -/
inductive Value.IsBoundedBelow : Value → Prop
  | variable (n : Name) : IsBoundedBelow (.variable n)
  | int (i : Int) : IsBoundedBelow (.int i)
  | float {b : Binary64} (h : b ≠ .infinite true) : IsBoundedBelow (.float b)
  | string (s : String) : IsBoundedBelow (.string s)
  | word (n : Name) : IsBoundedBelow (.word n)
  | list {vs : List Value} (h : ∀ v ∈ vs, v.IsBoundedBelow) : IsBoundedBelow (.list vs)
  | object {fs : List (Name × Value)} (h : ∀ f ∈ fs, f.2.IsBoundedBelow) :
      IsBoundedBelow (.object fs)

theorem Value.IsPlain.isBoundedBelow {v : Value} (h : v.IsPlain) : v.IsBoundedBelow := by
  induction h with
  | int i => exact .int i
  | float h => exact .float h
  | string s => exact .string s
  | word n => exact .word n
  | list _ ih => exact .list ih
  | object _ ih => exact .object ih

/-- A value without variables is plain if no number in it is the negative infinity. -/
theorem Value.IsConstant.isPlain {v : Value} (hv : v.IsConstant) (h : v.IsBoundedBelow) :
    v.IsPlain := by
  induction hv with
  | int i => exact .int i
  | float b =>
    cases h with
    | float h => exact .float h
  | string s => exact .string s
  | word n => exact .word n
  | list _ ih =>
    cases h with
    | list h => exact .list fun v hv => ih v hv (h v hv)
  | object _ ih =>
    cases h with
    | object h => exact .object fun f hf => ih f hf (h f hf)

/-- What two readings of a text agree on is plain exactly if no number in it is the negative
infinity. -/
theorem SameDefinition.isPlain_iff {all : List Token} {d : Definition} {e : Document.Definition}
    (h : SameDefinition all d e) : d.IsPlain ↔ ∀ v ∈ d.literals, v.IsBoundedBelow :=
  ⟨fun hd v hv => (hd.literals v hv).isBoundedBelow,
    fun hd => ⟨fun v hv => (h.constant v hv).isPlain (hd v hv), h.complete⟩⟩

/-! ## Descriptions of types -/

/-- The name of the type that a definition speaks of. -/
def Definition.typeName? : Definition → Option Name
  | .type t => some t.name
  | .extension e => some e.name
  | .schema _ | .directive _ => none

/-- The words that a definition describes its type in. -/
def Definition.words? : Definition → Option String
  | .type t => t.description
  | .extension _ | .schema _ | .directive _ => none

/-- The words of the definition that speaks of a type first. -/
def descriptionOf (name : String) (ds : List Definition) : Option String :=
  (ds.find? fun d => d.typeName?.any (·.text = name)).bind Definition.words?

open Document (nodesOf typeNodes)

variable {W W' : Option String → Option String → Prop} {ds : List Definition}
  {es es' : List Document.Definition}

theorem descriptionOf_cons (name : String) (d : Definition) (ds : List Definition) :
    descriptionOf name (d :: ds) =
      if d.typeName?.any (·.text = name) then d.words? else descriptionOf name ds := by
  rw [descriptionOf, List.find?_cons]
  cases d.typeName?.any (·.text = name) <;> rfl

theorem nodesOf_cons_type (name : String) (n : Document.TypeNode)
    (es : List Document.Definition) : nodesOf name (.type n :: es) =
      if n.name.text = name then n :: nodesOf name es else nodesOf name es := by
  have hnodes : typeNodes (.type n :: es) = n :: typeNodes es := rfl
  rw [nodesOf, hnodes, List.filter_cons]
  simp [nodesOf]

/-- The first node of a type is described as the definition that speaks of the type first. -/
theorem description_of_readAs (h : List.Forall₂ (ReadAs W) ds es) (hnone : W none none)
    {name : String} {n : Document.TypeNode} {ns : List Document.TypeNode}
    (hn : nodesOf name es = n :: ns) : W (descriptionOf name ds) n.description := by
  induction h generalizing n ns with
  | nil => cases hn
  | @cons d e ds es hd _ ih =>
    -- a definition that speaks of the type tells its words, and any other is passed over
    have hnode : ∀ {m : Document.TypeNode}, e = .type m → d.typeName? = some m.name →
        W d.words? m.description → W (descriptionOf name (d :: ds)) n.description := by
      rintro m rfl hname hwords
      rw [nodesOf_cons_type] at hn
      rw [descriptionOf_cons, hname, Option.any_some]
      by_cases hm : m.name.text = name
      · rw [if_pos hm] at hn
        obtain ⟨rfl, -⟩ := List.cons.inj hn
        rwa [if_pos (decide_eq_true hm)]
      · rw [if_neg hm] at hn
        rw [if_neg (by simpa using hm)]
        exact ih hn
    cases hd with
    | schema _ | directive _ => exact ih hn
    | type role words hname _ =>
      refine hnode rfl (congrArg some hname.symm) ?_
      rwa [Document.TypeNode.description, role]
    | extension role hname _ =>
      refine hnode rfl (congrArg some hname.symm) ?_
      rwa [Document.TypeNode.description, role]

/-- Documents that say what the same fragment says are alike. -/
theorem alike_of_readAs (h : List.Forall₂ (ReadAs W) ds es)
    (h' : List.Forall₂ (ReadAs W') ds es') : Document.Alike es es' := by
  induction h generalizing es' with
  | nil =>
    cases h'
    exact ⟨rfl, rfl, .nil⟩
  | cons hd _ ih =>
    obtain ⟨e', es', hd', hds', rfl⟩ := List.forall₂_cons_left_iff.1 h'
    have hrest := ih hds'
    -- nodes of the same role, name and content are the same when they are bare
    have hnode : ∀ {n n' : Document.TypeNode}, n.role.bare = n'.role.bare → n.name = n'.name →
        n.content.bare = n'.content.bare → n.bare = n'.bare := by
      intro n n' hrole hname hcontent
      rw [Document.TypeNode.bare, Document.TypeNode.bare, hrole, hname, hcontent]
    cases hd with
    | schema hops =>
      obtain @⟨_, _, hops'⟩ := hd'
      refine ⟨hrest.types, hrest.directives, .cons ⟨hops.trans hops'.symm, ?_⟩ hrest.schemas⟩
      exact (hops.map _).symm.nodup (SchemaDefinition.nodup_operations _)
    | type role _ hname hcontent =>
      cases hd' with
      | type role' _ hname' hcontent' =>
        refine ⟨congrArg₂ List.cons (hnode ?_ ?_ ?_) hrest.types, hrest.directives, hrest.schemas⟩
        · rw [role, role']
          rfl
        · rw [hname, hname']
        · rw [hcontent, hcontent']
    | extension role hname hcontent =>
      cases hd' with
      | extension role' hname' hcontent' =>
        refine ⟨congrArg₂ List.cons (hnode ?_ ?_ ?_) hrest.types, hrest.directives, hrest.schemas⟩
        · rw [role, role']
        · rw [hname, hname']
        · rw [hcontent, hcontent']
    | directive hname =>
      cases hd' with
      | directive hname' =>
        exact ⟨hrest.types, congrArg₂ List.cons (hname.trans hname'.symm) hrest.directives,
          hrest.schemas⟩

/-- The entry of a type has the description of the definition that speaks of the type first. -/
theorem description_of_catalog (h : List.Forall₂ (ReadAs W) ds es) (hnone : W none none)
    {c : Catalog} (hc : Catalog.ofDefinitions es = .ok c) {name : String} {r : TypeEntry}
    (hr : c.get? name = some r) : W (descriptionOf name ds) r.description := by
  obtain ⟨o, ho, htypes, -⟩ := Catalog.ofDefinitions_eq_ok hc
  rw [Catalog.get?, htypes, Catalog.typesOf, get?_linkImplementors, Option.map_eq_some_iff] at hr
  obtain ⟨s, hs, rfl⟩ := hr
  obtain ⟨d, -, hnodes, rfl⟩ := get?_entriesOf (Document.Outline.holds_of_ofDefinitions ho).2 hs
  exact description_of_readAs h hnone hnodes.symm

/-! ## Descriptions that are printed -/

theorem readAs_of_mapM (h : ds.mapM Definition.reread? = some es) :
    List.Forall₂ (ReadAs fun words words' => words' = rereadDescription 0 words) ds es := by
  induction ds generalizing es with
  | nil =>
    cases h
    exact .nil
  | cons d ds ih =>
    rw [Rule.mapM_cons_option, Option.bind_eq_some_iff] at h
    obtain ⟨e, he, h⟩ := h
    obtain ⟨es, hes, rfl⟩ := Option.map_eq_some_iff.1 h
    exact .cons (readAs_of_reread? he) (ih hes)

/-- The tokens of a text. -/
def tokensOf (text : String) : List Token := tokensIn (kindsOf (scan text.toList))

/-- A string token that stands for some words, which are printed as a string that stands for
what the token stands for in a document. -/
def SurvivesPrinting (token : String) : Prop :=
  ∀ words, stringValue token = .ok words →
    Document.stringValue (quoted 0 words) = Document.stringValue token

/-- A description by a token that survives is read back. -/
theorem WrittenAs.reread {all : List Token} {words words' : Option String}
    (h : WrittenAs all words words') (hall : ∀ token, .string token ∈ all →
      SurvivesPrinting token) : rereadDescription 0 words = words' := by
  cases h with
  | none => rfl
  | some hmem hwords => exact congrArg Option.some (hall _ hmem _ hwords)

end Fragment

/-! ## Catalogs -/

/-- A catalog with other descriptions of its types. -/
def Catalog.redescribe (c : Catalog) (words : String → Option String) : Catalog :=
  { c with types := c.types.mapWithKey fun name r => { r with description := words name } }

namespace Catalog

variable {c c' : Catalog} {words : String → Option String}

theorem get?_bare (c : Catalog) (name : String) :
    c.bare.get? name = (c.get? name).map TypeEntry.bare := Table.get?_mapWithKey _ _ _

theorem get?_redescribe (c : Catalog) (words : String → Option String) (name : String) :
    (c.redescribe words).get? name =
      (c.get? name).map fun r => { r with description := words name } :=
  Table.get?_mapWithKey _ _ _

/-- A catalog is told by what it says without descriptions and by the descriptions. -/
theorem eq_redescribe (hbare : c'.bare = c.bare)
    (h : ∀ name r, c'.get? name = some r → r.description = words name) :
    c' = c.redescribe words := by
  obtain ⟨types, directiveNames, bindings⟩ := c'
  have hget : ∀ name, (types.get? name).map TypeEntry.bare = (c.get? name).map TypeEntry.bare :=
    fun name => by rw [← get?_bare, ← hbare, get?_bare, get?]
  obtain ⟨htypes, rfl, rfl⟩ := Catalog.mk.inj hbare
  refine congrArg (Catalog.mk · _ _) (Table.ext_get? ?_ fun name => ?_)
  · have hkeys := congrArg Table.keys htypes
    rwa [bareTypes, bareTypes, Table.keys_mapWithKey, Table.keys_mapWithKey,
      ← Table.keys_mapWithKey (fun name r => { r with description := words name }) c.types] at hkeys
  · show _ = (c.redescribe words).get? name
    rw [get?_redescribe]
    specialize hget name
    cases hr : types.get? name with
    | none =>
      rw [hr, Option.map_none, eq_comm, Option.map_eq_none_iff] at hget
      rw [hget, Option.map_none]
    | some r =>
      rw [hr, Option.map_some, eq_comm, Option.map_eq_some_iff] at hget
      obtain ⟨s, hs, hsr⟩ := hget
      rw [hs, Option.map_some]
      have hdescription : r.description = words name := h name r hr
      calc some r = some { r.bare with description := words name } := by
            rw [← hdescription]
            rfl
        _ = _ := by
            rw [← hsr]
            rfl

/-- Other descriptions make no difference exactly if they are the same. -/
theorem redescribe_eq_iff : c.redescribe words = c ↔
    ∀ name r, c.get? name = some r → words name = r.description := by
  constructor
  · intro h name r hr
    have hget := get?_redescribe c words name
    rw [h, hr, Option.map_some] at hget
    exact (congrArg TypeEntry.description (Option.some.inj hget)).symm
  · intro h
    exact (eq_redescribe rfl fun name r hr => (h name r hr).symm).symm

end Catalog

open Fragment (descriptionOf tokensOf rereadDescription WrittenAs SurvivesPrinting)

/-- What a text is catalogued from. -/
theorem Source.catalog_text_iff {text : String} {c : Catalog} :
    (Source.text text).catalog = .ok c ↔
      ∃ es, Catalog.definitionsOf text = .ok es ∧ Catalog.ofDefinitions es = .ok c := by
  constructor
  · intro h
    obtain ⟨_, es, htext, hes, hc⟩ := Source.catalog_eq_ok h
    cases htext
    exact ⟨es, hes, hc⟩
  · rintro ⟨es, hes, hc⟩
    rw [Source.catalog_eq rfl hes, hc]
    rfl

/-- **Parsed documents.**  Let a text be catalogued, and let it also be read as a fragment.  The
fragment can be catalogued as a document exactly if none of its values holds the negative
infinity and none of its definitions has gaps inside brackets once it is printed.  Then its
catalog is that of the text, except that each description is what is read back of the printed
words.  These are what the fragment takes the description in the text for, so the catalogs are
the same exactly if all descriptions are read back as they were, which is so wherever the string
tokens of the text survive. -/
theorem Source.catalog_of_parsed {text : String} {ds : List Fragment.Definition} {c : Catalog}
    (h : Fragment.ofText text = .ok ds) (hc : (Source.text text).catalog = .ok c) :
    ((∃ c', (Source.document ds).catalog = .ok c') ↔
      ∀ d ∈ ds, (∀ v ∈ d.literals, v.IsBoundedBelow) ∧ d.KeepsClear) ∧
    (∀ name r, c.get? name = some r →
      WrittenAs (tokensOf text) (descriptionOf name ds) r.description) ∧
    ∀ c', (Source.document ds).catalog = .ok c' →
      c' = c.redescribe (fun name => rereadDescription 0 (descriptionOf name ds)) ∧
      (c' = c ↔ ∀ name r, c.get? name = some r →
        rereadDescription 0 (descriptionOf name ds) = r.description) ∧
      ((∀ token, .string token ∈ tokensOf text → SurvivesPrinting token) → c' = c) := by
  obtain ⟨hds, hsound⟩ := Fragment.isSound_of_ofText h
  obtain ⟨es, hes, hces⟩ := Source.catalog_text_iff.1 hc
  have hsame := Fragment.sameDefinitions_of_ofText h hes
  have hreadAs := hsame.imp fun _ _ h => h.readAs
  have hwritten : ∀ name r, c.get? name = some r →
      WrittenAs (tokensOf text) (descriptionOf name ds) r.description :=
    fun name r hr => Fragment.description_of_catalog hreadAs .none hces hr
  -- what is read of the printed fragment can be catalogued, since the text can
  have hcatalog : ∀ es', Catalog.definitionsOf (Fragment.write ds) = .ok es' →
      Catalog.ofDefinitions es' =
        .ok (c.redescribe fun name => rereadDescription 0 (descriptionOf name ds)) := by
    intro es' hes'
    have hreadAs' := Fragment.readAs_of_mapM ((Fragment.definitionsOf_write_eq_ok_iff hds).1 hes').2
    obtain ⟨c', hc', hbare⟩ := (Fragment.alike_of_readAs hreadAs hreadAs').ofDefinitions hces
    rw [hc', Catalog.eq_redescribe hbare fun name r hr =>
      Fragment.description_of_catalog hreadAs' rfl hc' hr]
  have hprinted : ∀ {c'}, (Source.document ds).catalog = .ok c' ↔ ∃ es',
      Catalog.definitionsOf (Fragment.write ds) = .ok es' ∧ Catalog.ofDefinitions es' = .ok c' :=
    Source.catalog_text_iff
  refine ⟨?_, hwritten, fun c' hc' => ?_⟩
  · have hplain : ∀ d ∈ ds, d.IsPlain ↔ ∀ v ∈ d.literals, v.IsBoundedBelow :=
      Fragment.forall_mem_of_forall₂ (hsame.imp fun _ _ h => h.isPlain_iff)
    have hread : (∃ es', Catalog.definitionsOf (Fragment.write ds) = .ok es') ↔
        ∀ d ∈ ds, (∀ v ∈ d.literals, v.IsBoundedBelow) ∧ d.KeepsClear := by
      rw [Fragment.exists_definitionsOf_write_iff hds hsound]
      exact forall₂_congr fun d hd => and_congr_left' (hplain d hd)
    simp only [hprinted, ← hread]
    exact ⟨fun ⟨_, es', hes', _⟩ => ⟨es', hes'⟩,
      fun ⟨es', hes'⟩ => ⟨_, es', hes', hcatalog es' hes'⟩⟩
  · obtain ⟨es', hes', hces'⟩ := hprinted.1 hc'
    obtain rfl := Except.ok.inj ((hcatalog es' hes').symm.trans hces')
    refine ⟨rfl, Catalog.redescribe_eq_iff, fun hsurvives => ?_⟩
    exact Catalog.redescribe_eq_iff.2 fun name r hr => (hwritten name r hr).reread hsurvives

/-- A character beyond the first plane is printed with its number in decimal digits, and read back
as another character and two digits. -/
theorem Source.catalog_of_parsed_emoji :
    let text := "\"Hi 😀\" type T \x7ba: Int\x7d"
    let field : Fragment.Field :=
      ⟨none, ⟨"a", by decide⟩, [], .named ⟨"Int", by decide⟩ false, []⟩
    let ds : List Fragment.Definition :=
      [.type ⟨some "Hi 😀", ⟨"T", by decide⟩, [], .object [] [field]⟩]
    let r : TypeEntry := ⟨.definition .object, some "Hi 😀",
      [⟨"a", ⟨"Int", true, false, false⟩, [], false⟩], [], [], []⟩
    let c : Catalog := ⟨⟨[("T", r)], by decide⟩, [], none⟩
    Fragment.ofText text = .ok ds ∧ (Source.text text).catalog = .ok c ∧
      (Source.document ds).catalog = .ok (c.redescribe fun _ => some "Hi ኅ12") ∧
      ¬(Source.document ds).catalog = .ok c := by
  intro text field ds r c
  have h : Fragment.ofText "\"Hi 😀\" type T \x7ba: Int\x7d" = .ok ds := by rfl
  have hc : (Source.text "\"Hi 😀\" type T \x7ba: Int\x7d").catalog = .ok c := by rfl
  have hwrite : Fragment.write ds = "\"Hi \\u128512\"\ntype T \x7b\n  a: Int\n\x7d\n" := by rfl
  have hc' : (Source.text "\"Hi \\u128512\"\ntype T \x7b\n  a: Int\n\x7d\n").catalog =
      .ok (c.redescribe fun _ => some "Hi ኅ12") := by rfl
  rw [← hwrite] at hc'
  obtain ⟨-, -, hall⟩ := Source.catalog_of_parsed h hc
  refine ⟨h, hc, hc', fun hsame => ?_⟩
  -- were the catalogs the same, the description would be read back as it was
  have hread := (hall c hsame).2.1.1 rfl "T" r rfl
  exact absurd hread (by decide)

end SchemaCatalog

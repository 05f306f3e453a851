/-
# How annotations are described

An annotation says of a field or an argument which type it has.  The walk along the layers of
a reference finds what a recursion over the reference finds that takes off one layer after the
other, and carries with it what is known of the layers outside.  The text of an annotation is
read as the reference that it spells, so the same holds of the text.
-/
import SchemaCatalog.Proofs.CatalogFields
import SchemaCatalog.Proofs.Gaps
import SchemaCatalog.Proofs.RereadDefinitions

namespace SchemaCatalog

open Document (Definition)

/-! ## Taking off layers -/

namespace TypeUse

/-- What the mark of a layer adds to what is known of the layers outside.  The mark of the
outermost layer tells whether null is allowed, and one inside a list that elements are
required. -/
def note (u : TypeUse) (isOutermost : Bool) : Bool → TypeUse
  | false => u
  | true =>
    if isOutermost then { u with isNullable := false }
    else if u.isList then { u with hasRequiredElements := true }
    else u

/-- The description of a reference, if some of it is known of the layers outside. -/
def unwrapFrom (u : TypeUse) (isOutermost : Bool) : TypeRef → TypeUse
  | .named n r => { u.note isOutermost r with typeName := n.text }
  | .list t r => unwrapFrom { u.note isOutermost r with isList := true } false t

/-- The description of a reference, by taking off its layers. -/
def unwrap (t : TypeRef) : TypeUse := unwrapFrom ⟨"", true, false, false⟩ true t

/-- A walk past the mark of a layer finds what the mark adds, and no name. -/
theorem found_foldl_mark (w : Layer.Walk) (r : Bool) :
    ((Layer.ofMark r).foldl Layer.Walk.step w).found = w.found.note w.atTop r ∧
      ((Layer.ofMark r).foldl Layer.Walk.step w).typeName = w.typeName := by
  obtain ⟨atTop, insideList, requiredAtTop, requiredInside, typeName⟩ := w
  cases r with
  | false => exact ⟨rfl, rfl⟩
  | true => cases atTop <;> cases insideList <;> exact ⟨rfl, rfl⟩

/-- As long as it has met no name, a walk finds what is found by taking off layers. -/
theorem found_foldl_step (t : TypeRef) (w : Layer.Walk) (hname : w.typeName = none) :
    ((Layer.ofTypeRef t).foldl Layer.Walk.step w).found = unwrapFrom w.found w.atTop t := by
  induction t generalizing w with
  | named n r =>
    obtain ⟨hfound, hnone⟩ := found_foldl_mark w r
    rw [Layer.ofTypeRef, List.foldl_append, unwrapFrom, ← hfound]
    generalize (Layer.ofMark r).foldl Layer.Walk.step w = w' at hnone
    show Layer.Walk.found (w'.step (.named n.text)) = _
    rw [Layer.Walk.step, hnone, hname]
    rfl
  | list t r ih =>
    obtain ⟨hfound, hnone⟩ := found_foldl_mark w r
    rw [Layer.ofTypeRef, List.foldl_append, List.foldl_cons, unwrapFrom, ← hfound]
    exact ih _ (hnone.trans hname)

/-- The walk along the layers is the recursion over the reference. -/
theorem ofTypeRef_eq_unwrap (t : TypeRef) : ofTypeRef t = unwrap t :=
  found_foldl_step t .start rfl

/-! ## What a description tells -/

/-- A reference has one description. -/
theorem Describes.unique {u v : TypeUse} {t : TypeRef} (hu : u.Describes t) (hv : v.Describes t) :
    u = v := by
  obtain ⟨name, isNullable, isList, hasRequiredElements⟩ := u
  obtain ⟨name', isNullable', isList', hasRequiredElements'⟩ := v
  rw [TypeUse.mk.injEq]
  exact ⟨hu.typeName.trans hv.typeName.symm, hu.isNullable.trans hv.isNullable.symm,
    Bool.eq_iff_iff.2 (hu.isList.trans hv.isList.symm),
    Bool.eq_iff_iff.2 (hu.hasRequiredElements.trans hv.hasRequiredElements.symm)⟩

/-- Two references are described alike exactly if they agree on all that is described. -/
theorem ofTypeRef_eq_iff (t u : TypeRef) :
    ofTypeRef t = ofTypeRef u ↔ t.innermost = u.innermost ∧ t.isRequired = u.isRequired ∧
      (0 < t.depth ↔ 0 < u.depth) ∧ (true ∈ t.marks.tail ↔ true ∈ u.marks.tail) := by
  have ht := describes_ofTypeRef t
  have hu := describes_ofTypeRef u
  constructor
  · intro h
    rw [h] at ht
    exact ⟨Name.ext_text (ht.typeName.symm.trans hu.typeName),
      Bool.not_inj (ht.isNullable.symm.trans hu.isNullable), ht.isList.symm.trans hu.isList,
      ht.hasRequiredElements.symm.trans hu.hasRequiredElements⟩
  · rintro ⟨hname, hrequired, hdepth, hmarks⟩
    have ht' : (ofTypeRef t).Describes u :=
      ⟨hname ▸ ht.typeName, hrequired ▸ ht.isNullable, ht.isList.trans hdepth,
        ht.hasRequiredElements.trans hmarks⟩
    exact ht'.unique hu

end TypeUse

/-- A reference has a mark for each list and one for the name, that of the outermost layer
first. -/
theorem TypeRef.marks_eq (t : TypeRef) :
    t.marks = t.isRequired :: t.marks.tail ∧ t.marks.tail.length = t.depth := by
  induction t with
  | named n r => exact ⟨rfl, rfl⟩
  | list t r ih =>
    refine ⟨rfl, ?_⟩
    show t.marks.length = t.depth + 1
    rw [ih.1, List.length_cons, ih.2]

/-! ## Annotations in a text -/

section

open Lexeme (Kind)
open Document (Spells SpellsAlone Spot Gaps gaps_append kindsIn)
open Document.Implements (Passed repairKinds)

theorem place_ne_afterName {s : Spot} (h : s.passed.place = .outside) :
    s.passed.place ≠ .afterName := by
  rw [h]
  nofun

/-- Behind a place where no separator can be missing stands no gap. -/
theorem gaps_token {P : Nat → Prop} {s : Spot} (h : s.passed.place ≠ .afterName) {t : Token}
    {ks : List Kind} (htail : Gaps P (s.pass t) ks) : Gaps P s (.token t :: ks) := by
  refine ⟨fun hlacks => ?_, htail⟩
  rw [Passed.lacksSeparator_of_place h] at hlacks
  cases hlacks

theorem gaps_bang {P : Nat → Prop} {s : Spot} (h : s.passed.place ≠ .afterName) (r : Bool) :
    Gaps P s (bangKinds r) ∧ (s.passKinds (bangKinds r)).passed.place ≠ .afterName := by
  cases r with
  | false => exact ⟨trivial, h⟩
  | true => exact ⟨gaps_token h trivial, s.passed.place_pass_mark .bang⟩

/-- No separator is missing in a reference, nor behind it. -/
theorem gaps_type {P : Nat → Prop} (t : TypeRef) {s : Spot} (h : s.passed.place = .outside) :
    Gaps P s t.kinds ∧ (s.passKinds t.kinds).passed.place ≠ .afterName := by
  induction t generalizing s with
  | named n r =>
    have hname : (s.pass (.name n)).passed.place ≠ .afterName := Passed.place_pass_ne_of_outside h
    obtain ⟨hgaps, hend⟩ := gaps_bang (P := P) hname r
    exact ⟨gaps_token (place_ne_afterName h) hgaps, hend⟩
  | list t r ih =>
    let inside := s.pass (.mark .openBracket)
    have hinside : inside.passed.place = .outside :=
      s.passed.place_pass_of_ne_ampersand nofun
    obtain ⟨hgaps, hend⟩ := ih hinside
    have hclose : ((inside.passKinds t.kinds).pass (.mark .closeBracket)).passed.place ≠
        .afterName := Passed.place_pass_mark _ .closeBracket
    obtain ⟨hbang, hbangEnd⟩ := gaps_bang (P := P) hclose r
    refine ⟨gaps_token (place_ne_afterName h) (gaps_append.2 ⟨hgaps, gaps_token hend hbang⟩), ?_⟩
    rw [TypeRef.kinds, Spot.passKinds_token, Spot.passKinds_append, Spot.passKinds_token]
    exact hbangEnd

/-- The text that declares an object with one field. -/
def declaringText (type field : Name) (spelling : String) : String :=
  "type " ++ type.text ++ " \x7b " ++ field.text ++ ": " ++ spelling ++ " \x7d"

/-- The object with one field that is declared so. -/
def declaredNode (type field : Name) (t : TypeRef) : Document.TypeNode :=
  ⟨.definition none, type, [], .object [] [⟨none, field, [], t, []⟩]⟩

/-- The same as it is printed. -/
def printedNode (type field : Name) (t : TypeRef) : Fragment.Definition :=
  .type ⟨none, type, [], .object [] [⟨none, field, [], t, []⟩]⟩

variable (type field : Name) {t : TypeRef} {spelling : String}

theorem kinds_printedNode (t : TypeRef) : (printedNode type field t).kinds =
    [Shape.object.word.lexeme, type.lexeme, Mark.openBrace.lexeme, field.lexeme,
      Mark.colon.lexeme] ++ (t.kinds ++ [Mark.closeBrace.lexeme]) := by
  simp [printedNode, Fragment.Definition.kinds, Fragment.typeKinds, Fragment.contentKinds,
    Fragment.interfaceKinds, Fragment.directiveKinds, Fragment.blockKinds, Fragment.Field.kinds,
    Fragment.descriptionKinds, Fragment.argumentKinds, Fragment.Content.shape]

/-- The text is spelled as what is printed, if the annotation spells the reference. -/
theorem kindsIn_declaringText (h : Spells spelling.toList t.kinds) :
    kindsIn (declaringText type field spelling).toList = (printedNode type field t).kinds := by
  have hword := (Document.spells_name Shape.object.word).close Fragment.closes_space
  have hopen : Document.Closes " \x7b ".toList [Mark.openBrace.lexeme] := closes_text rfl rfl
  have hclose : Document.Closes " \x7d".toList [Mark.closeBrace.lexeme] := closes_text rfl rfl
  have htext := hword.append_alone (((Document.spells_name type).close hopen).append_alone
    (((Document.spells_name field).close closes_colon).append_alone (h.close hclose)))
  have hkinds := htext []
  rw [List.append_nil, show kindsIn [] = [] from rfl, List.append_nil] at hkinds
  have htoList : (declaringText type field spelling).toList =
      Shape.object.word.text.toList ++ " ".toList ++ (type.text.toList ++ " \x7b ".toList ++
        (field.text.toList ++ ": ".toList ++ (spelling.toList ++ " \x7d".toList))) := by
    simp [declaringText, Shape.keyword]
  rw [kinds_printedNode, htoList]
  exact hkinds

/-- No separator is missing in the text. -/
theorem repairKinds_printedNode (t : TypeRef) :
    repairKinds .nothing (printedNode type field t).kinds = (printedNode type field t).kinds := by
  -- each name is found outside of a list, so it leads at most to where one could begin
  let start : Spot := ⟨.nothing, 0⟩
  let behindWord := start.pass (.name Shape.object.word)
  let behindType := behindWord.pass (.name type)
  let behindBrace := behindType.pass (.mark .openBrace)
  let behindField := behindBrace.pass (.name field)
  let behindColon := behindField.pass (.mark .colon)
  have hword : behindWord.passed.place = .outside :=
    Passed.place_pass_of_outside rfl (Or.inr rfl)
  have htype : behindType.passed.place ≠ .afterName := Passed.place_pass_ne_of_outside hword
  have hbrace : behindBrace.passed.place = .outside :=
    Passed.place_pass_of_ne_ampersand _ nofun
  have hfield : behindField.passed.place ≠ .afterName := Passed.place_pass_ne_of_outside hbrace
  have hcolon : behindColon.passed.place = .outside :=
    Passed.place_pass_of_ne_ampersand _ nofun
  obtain ⟨hgaps, hend⟩ := gaps_type (P := fun _ => False) t hcolon
  have hclose : Gaps (fun _ => False) (behindColon.passKinds t.kinds) [Mark.closeBrace.lexeme] :=
    gaps_token hend trivial
  have hrest := gaps_append.2 ⟨hgaps, hclose⟩
  rw [kinds_printedNode]
  exact Document.repairKinds_of_noGaps (s := start) <| gaps_token (place_ne_afterName rfl) <|
    gaps_token (place_ne_afterName hword) <| gaps_token htype <|
    gaps_token (place_ne_afterName hbrace) <| gaps_token hfield hrest

/-- What is printed is read as it was declared, if there are not too many lists. -/
theorem reread?_printedNode (t : TypeRef) : (printedNode type field t).reread? =
    if t.depth ≤ Document.maxLevels then some (.type (declaredNode type field t)) else none := by
  by_cases h : t.depth ≤ Document.maxLevels <;>
    simp [printedNode, declaredNode, Fragment.Definition.reread?, Fragment.TypeDefinition.reread?,
      Fragment.rereadBody?, Fragment.rereadBody?.rereadFieldsBody?, Fragment.rereadBlock?,
      Fragment.Field.reread?, Fragment.rereadType?, Fragment.declared?, Fragment.rereadDescription,
      h]

theorem definitionsOf_declaringText (h : Spells spelling.toList t.kinds)
    (ds : List Definition) : Catalog.definitionsOf (declaringText type field spelling) = .ok ds ↔
      t.depth ≤ Document.maxLevels ∧ ds = [.type (declaredNode type field t)] := by
  rw [Document.definitionsOf_eq_ok_iff, kindsIn_declaringText type field h, repairKinds_printedNode]
  have hfeed := Fragment.feed_document [printedNode type field t] (Nat.le_refl _)
  rw [List.flatMap_cons, List.flatMap_nil, List.append_nil] at hfeed
  rw [hfeed]
  by_cases hdepth : t.depth ≤ Document.maxLevels
  · simp [reread?_printedNode, hdepth, Rule.leaving, Rule.settleKinds, eq_comm]
  · simp [reread?_printedNode, hdepth, Rule.leaving]

/-- The entry of that object. -/
def declaredEntry (field : Name) (t : TypeRef) : TypeEntry :=
  ⟨.definition .object, none, [⟨field.text, .ofTypeRef t, [], false⟩], [], [], []⟩

/-- The catalog with that object. -/
def declaredCatalog (type field : Name) (t : TypeRef) : Catalog :=
  ⟨⟨[(type.text, declaredEntry field t)], List.nodup_singleton _⟩, [], none⟩

/-- The text is catalogued unless there are too many lists, and then as that object. -/
theorem catalog_declaringText (h : Spells spelling.toList t.kinds) (c : Catalog) :
    (Source.text (declaringText type field spelling)).catalog = .ok c ↔
      t.depth ≤ Document.maxLevels ∧ c = declaredCatalog type field t := by
  have hdeclared : Catalog.ofDefinitions [.type (declaredNode type field t)] =
      .ok (declaredCatalog type field t) := rfl
  constructor
  · intro hc
    obtain ⟨text, ds, htext, hds, hc⟩ := Source.catalog_eq_ok hc
    cases htext
    obtain ⟨hdepth, rfl⟩ := (definitionsOf_declaringText type field h ds).1 hds
    exact ⟨hdepth, (Except.ok.inj (hdeclared.symm.trans hc)).symm⟩
  · rintro ⟨hdepth, rfl⟩
    have hds := (definitionsOf_declaringText type field h _).2 ⟨hdepth, rfl⟩
    rw [Source.catalog_eq rfl hds, hdeclared]
    rfl

end

/-- **Annotations.**  Each layer of a reference is marked as required or not.  The walk along the
layers finds what taking them off does: the name, whether the outermost layer is required,
whether there are lists, and whether any layer inside them is required.  Two references that
agree on this are described alike, and no others.  So each field and each argument in a catalog
is described as its reference is written; and whatever way an annotation is written, the text
that declares one field with it is catalogued, unless there are too many lists, and has that
field with that description. -/
theorem TypeUse.ofTypeRef_follows_layers :
    (∀ t : TypeRef, t.marks = t.isRequired :: t.marks.tail ∧ t.marks.tail.length = t.depth ∧
      (ofTypeRef t).Describes t ∧ ofTypeRef t = unwrap t) ∧
    (∀ t u : TypeRef, ofTypeRef t = ofTypeRef u ↔
      t.innermost = u.innermost ∧ t.isRequired = u.isRequired ∧ (0 < t.depth ↔ 0 < u.depth) ∧
        (true ∈ t.marks.tail ↔ true ∈ u.marks.tail)) ∧
    (∀ (s : Source) (c : Catalog), s.catalog = .ok c →
      ∃ text ds, s.toText = .ok text ∧ Catalog.definitionsOf text = .ok ds ∧
        ∀ name r, c.get? name = some r → List.Forall₂ FieldEntry.Records r.fields
          (if r.kind.hasFields then fieldNodesOf name ds else [])) ∧
    (∀ (type field : Name) (t : TypeRef) (spelling : String),
      Document.Spells spelling.toList t.kinds →
      ((∃ c, (Source.text (declaringText type field spelling)).catalog = .ok c) ↔
        t.depth ≤ Document.maxLevels) ∧
      ∀ c, (Source.text (declaringText type field spelling)).catalog = .ok c →
        ∃ r, c.get? type.text = some r ∧ r.fields = [⟨field.text, ofTypeRef t, [], false⟩]) ∧
    ∀ t : TypeRef, Document.Spells t.text.toList t.kinds := by
  refine ⟨fun t => ?_, ofTypeRef_eq_iff, fun s c h => ?_, fun type field t spelling h => ?_,
    spells_type⟩
  · exact ⟨t.marks_eq.1, t.marks_eq.2, describes_ofTypeRef t, ofTypeRef_eq_unwrap t⟩
  · obtain ⟨text, ds, htext, hds, hc⟩ := Source.catalog_eq_ok h
    refine ⟨text, ds, htext, hds, fun name r hr => ?_⟩
    rw [Catalog.fields_of_get? hc hr]
    split
    · exact forall₂_map_left FieldNode.records_entry _
    · exact .nil
  · have hcatalog := catalog_declaringText type field h
    refine ⟨⟨?_, ?_⟩, ?_⟩
    · rintro ⟨c, hc⟩
      exact ((hcatalog c).1 hc).1
    · exact fun hdepth => ⟨_, (hcatalog _).2 ⟨hdepth, rfl⟩⟩
    · intro c hc
      obtain ⟨-, rfl⟩ := (hcatalog c).1 hc
      refine ⟨declaredEntry field t, ?_, rfl⟩
      simp [declaredCatalog, Catalog.get?, Table.get?]

/-- A list that is required, of lists of what is required. -/
theorem TypeUse.ofTypeRef_follows_layers_of_nested_lists :
    ∃ c, (Source.text "type T \x7b f: [[Int!]]! \x7d").catalog = .ok c ∧
      ∃ r, c.get? "T" = some r ∧
        r.fields = [⟨"f", ⟨"Int", false, true, true⟩, [], false⟩] := by
  let t : TypeRef := .list (.list (.named ⟨"Int", by decide⟩ true) false) true
  obtain ⟨-, -, -, htexts, hspells⟩ := TypeUse.ofTypeRef_follows_layers
  obtain ⟨haccepts, hfields⟩ :=
    htexts ⟨"T", by decide⟩ ⟨"f", by decide⟩ t "[[Int!]]!" (hspells t)
  obtain ⟨c, hc⟩ := haccepts.2 (by decide)
  exact ⟨c, hc, hfields c hc⟩

end SchemaCatalog

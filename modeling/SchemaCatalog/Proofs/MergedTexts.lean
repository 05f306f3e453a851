/-
# Reading merged texts

What several fragments are merged into is printed, and the text is repaired and read again,
although the fragments have been repaired already.  A definition that is printed begins with
words outside all brackets; what comes behind them begins with a mark.  So the gaps of one
definition do not depend on the definition before it, and outside brackets there is at most
one, in front of the first interface of a type, where a separator does no harm.
-/
import SchemaCatalog.Proofs.Gaps
import SchemaCatalog.Proofs.PlainDefinitions

namespace SchemaCatalog.Fragment

open Lexeme (Kind)
open Document (Enclosed Contained IsLevel Spot Gaps GapsInside GapsOutside contained_nil
  enclosed_nil gaps_append)
open Document.Implements
open Rule

/-! ## Parts between brackets -/

theorem enclosed_bang (b : Bool) : Enclosed (bangKinds b) := by
  cases b with
  | false => exact enclosed_nil
  | true => exact enclosed_nil.token ⟨rfl, rfl⟩

/-- The brackets of a type are closed in it. -/
theorem enclosed_type (t : TypeRef) : Enclosed t.kinds := by
  induction t with
  | named n r => exact (enclosed_bang r).token trivial
  | list t r ih =>
    have hlist := ih.bracketed .openBracket .closeBracket rfl rfl
    simpa [TypeRef.kinds] using hlist.enclosed.append (enclosed_bang r)

theorem isLevel_name (n : Name) : IsLevel (.name n) := trivial

theorem enclosed_token {t : Token} (h : IsLevel t) : Enclosed [.token t] := enclosed_nil.token h

theorem enclosed_float (b : Binary64) : Enclosed (Document.floatKinds b) := by
  cases b with
  | infinite isNegative =>
    cases isNegative with
    | false => exact enclosed_token (t := .name Document.infName) trivial
    | true => exact Enclosed.flaw (enclosed_token (t := .name Document.nfName) trivial) _
  | finite _ _ _ =>
    refine enclosed_token ?_
    split <;> trivial

theorem enclosed_argument {indent : Nat} {f : Name × Value} (h : Enclosed (f.2.kinds indent)) :
    Enclosed (argumentKind indent f) :=
  Enclosed.token (h.token ⟨rfl, rfl⟩) trivial

mutual

/-- The brackets of a value are closed in it, by induction on the value. -/
theorem enclosed_value (indent : Nat) : ∀ v : Value, Enclosed (v.kinds indent)
  | .variable n => by
    rw [Value.kinds]
    exact Enclosed.token (enclosed_token (t := .name n) trivial) ⟨rfl, rfl⟩
  | .int i => by
    rw [Value.kinds]
    exact enclosed_token trivial
  | .string s => by
    rw [Value.kinds]
    exact enclosed_token trivial
  | .word n => by
    rw [Value.kinds]
    exact enclosed_token trivial
  | .float b => by
    rw [Value.kinds]
    exact enclosed_float b
  | .list vs => by
    rw [Value.kinds, itemKinds_eq]
    exact ((Enclosed.commaSeparated (enclosed_items indent vs)).bracketed _ _ rfl rfl).enclosed
  | .object fs => by
    rw [Value.kinds, fieldKinds_eq]
    have hfields : ∀ f ∈ fs, Enclosed (argumentKind indent f) := fun f hf =>
      enclosed_argument (enclosed_fields indent fs f hf)
    exact ((Enclosed.commaSeparated hfields).bracketed _ _ rfl rfl).enclosed

theorem enclosed_items (indent : Nat) : ∀ vs : List Value, ∀ v ∈ vs, Enclosed (v.kinds indent)
  | [] => by simp
  | w :: vs => by
    rw [List.forall_mem_cons]
    exact ⟨enclosed_value indent w, enclosed_items indent vs⟩

theorem enclosed_fields (indent : Nat) :
    ∀ fs : List (Name × Value), ∀ f ∈ fs, Enclosed (f.2.kinds indent)
  | [] => by simp
  | (n, w) :: fs => by
    rw [List.forall_mem_cons]
    exact ⟨enclosed_value indent w, enclosed_fields indent fs⟩

end

/-- Directives have gaps only in their arguments. -/
theorem contained_directives (indent : Nat) (ds : List Directive) :
    Contained (directiveKinds indent ds) := by
  refine Contained.flatMap fun d _ => ?_
  have hname : Contained [Mark.atSign.lexeme, d.name.lexeme] :=
    Document.contained_markedName ⟨rfl, rfl⟩ d.name
  suffices happlied : Contained (appliedKinds indent d.arguments) from hname.append happlied
  rw [appliedKinds]
  split
  · exact contained_nil
  · rw [fieldKinds_eq]
    refine Enclosed.bracketed (Enclosed.commaSeparated fun f _ => ?_) _ _ rfl rfl
    exact enclosed_argument (enclosed_value indent f.2)

theorem enclosed_description (indent : Nat) (d : Option String) :
    Enclosed (descriptionKinds indent d) := by
  cases d with
  | none => exact enclosed_nil
  | some s => exact enclosed_nil.token trivial

theorem enclosed_default (indent : Nat) (d : Option Value) : Enclosed (defaultKinds indent d) := by
  cases d with
  | none => exact enclosed_nil
  | some v => exact (enclosed_value indent v).token ⟨rfl, rfl⟩

/-- An argument, or a field of an input object, closes what it opens. -/
theorem enclosed_inputValue (indent : Nat) (v : InputValue) : Enclosed (v.kinds indent) := by
  refine (enclosed_description indent v.description).append (Enclosed.token ?_ trivial)
  refine Enclosed.token ((enclosed_type v.type).append ?_) ⟨rfl, rfl⟩
  exact (enclosed_default indent v.default).append (contained_directives indent _).enclosed

/-- Arguments stand in parentheses, so no gap among them is outside brackets. -/
theorem contained_arguments (indent : Nat) (vs : List InputValue) :
    Contained (argumentKinds indent vs) := by
  rw [argumentKinds]
  split
  · exact contained_nil
  · exact (Enclosed.commaSeparated fun v _ => enclosed_inputValue indent v).bracketed _ _ rfl rfl

theorem enclosed_field (indent : Nat) (f : Field) : Enclosed (f.kinds indent) := by
  refine (enclosed_description indent f.description).append (Enclosed.token ?_ trivial)
  refine (contained_arguments indent f.arguments).enclosed.append (Enclosed.token ?_ ⟨rfl, rfl⟩)
  exact (enclosed_type f.type).append (contained_directives indent f.directives).enclosed

theorem enclosed_enumValue (indent : Nat) (v : EnumValue) : Enclosed (v.kinds indent) := by
  refine (enclosed_description indent v.description).append (Enclosed.token ?_ trivial)
  exact (contained_directives indent v.directives).enclosed

/-- A block stands in braces, so no gap in it is outside brackets. -/
theorem contained_block {α : Type} {kinds : α → List Kind} (xs : List α)
    (h : ∀ x, Enclosed (kinds x)) : Contained (blockKinds (xs.map kinds)) := by
  rw [blockKinds]
  split
  · exact contained_nil
  · rw [← List.flatMap_def]
    exact (Enclosed.flatMap fun x _ => h x).bracketed _ _ rfl rfl

/-- Names behind marks have no gaps. -/
theorem contained_names {m : Mark} (hm : IsLevel (.mark m)) (ns : List Name) :
    Contained (ns.flatMap fun n => [m.lexeme, n.lexeme]) :=
  Contained.flatMap fun n _ => Document.contained_markedName hm n

theorem contained_union (ms : List Name) : Contained (unionKinds ms) := by
  cases ms with
  | nil => exact contained_nil
  | cons m ms =>
    have hfirst : Contained [Mark.equals.lexeme, m.lexeme] :=
      Document.contained_markedName ⟨rfl, rfl⟩ m
    have hkinds : unionKinds (m :: ms) = [Mark.equals.lexeme, m.lexeme] ++
        ms.flatMap fun n => [Mark.pipe.lexeme, n.lexeme] := by
      simp [unionKinds, nameKinds_cons]
    rw [hkinds]
    exact hfirst.append (contained_names ⟨rfl, rfl⟩ ms)

/-! ## The parts of a definition -/

/-- The directives and the content of a type, without its interfaces. -/
def innerKinds (ds : List Directive) : Content → List Kind
  | .interface _ fs | .object _ fs =>
    directiveKinds 0 ds ++ blockKinds (fs.map (Field.kinds memberIndent))
  | c => contentKinds ds c

/-- The content of a type is its interfaces and what comes behind them. -/
theorem contentKinds_eq (ds : List Directive) (c : Content) :
    contentKinds ds c = interfaceKinds c.interfaces ++ innerKinds ds c := by
  cases c <;> rfl

/-- Behind the interfaces of a type, no gap is outside brackets. -/
theorem contained_inner (ds : List Directive) (c : Content) : Contained (innerKinds ds c) := by
  have hds := contained_directives 0 ds
  cases c with
  | enum vs => exact hds.append (contained_block vs (enclosed_enumValue memberIndent))
  | inputObject fs => exact hds.append (contained_block fs (enclosed_inputValue memberIndent))
  | interface is fs | object is fs =>
    exact hds.append (contained_block fs (enclosed_field memberIndent))
  | scalar => exact hds
  | union ms => exact hds.append (contained_union ms)

/-- Kinds that leave no bracket open and close none. -/
def Balanced (ks : List Kind) : Prop := ∀ s : Spot, (s.passKinds ks).depth = s.depth

theorem Balanced.append {ks ls : List Kind} (h : Balanced ks) (h' : Balanced ls) :
    Balanced (ks ++ ls) := by
  intro s
  rw [Spot.passKinds_append, h', h]

theorem Balanced.token {ks : List Kind} (h : Balanced ks) {t : Token} (ht : IsLevel t) :
    Balanced (.token t :: ks) :=
  fun s => (h (s.pass t)).trans (ht.depthAfter_eq s.depth)

/-- Whether the first of some kinds, if there is one, is a mark other than the separator. -/
def StartsWithMark (ks : List Kind) : Prop :=
  ∀ k ∈ ks.head?, ∃ m : Mark, m ≠ .ampersand ∧ k = m.lexeme

theorem startsWithMark_cons {m : Mark} (hm : m ≠ .ampersand) (ks : List Kind) :
    StartsWithMark (m.lexeme :: ks) := by
  rintro _ ⟨⟩
  exact ⟨m, hm, rfl⟩

theorem startsWithMark_directives (ds : List Directive) {ks : List Kind} (h : StartsWithMark ks) :
    StartsWithMark (directiveKinds 0 ds ++ ks) := by
  cases ds with
  | nil => exact h
  | cons d ds => exact startsWithMark_cons (m := .atSign) nofun _

theorem startsWithMark_block (kss : List (List Kind)) : StartsWithMark (blockKinds kss) := by
  cases kss with
  | nil => exact nofun
  | cons ks kss => exact startsWithMark_cons (m := .openBrace) nofun _

/-- What comes behind the interfaces of a type, if anything does, begins with a mark. -/
theorem startsWithMark_inner (ds : List Directive) (c : Content) :
    StartsWithMark (innerKinds ds c) := by
  cases c with
  | enum | inputObject | interface | object =>
    exact startsWithMark_directives ds (startsWithMark_block _)
  | scalar =>
    have h : StartsWithMark (directiveKinds 0 ds ++ []) := startsWithMark_directives ds nofun
    rwa [List.append_nil] at h
  | union ms =>
    refine startsWithMark_directives ds ?_
    cases ms with
    | nil => exact nofun
    | cons m ms => exact startsWithMark_cons (m := .equals) nofun _

/-- Whether there is nothing but tokens among some kinds, and no bracket among these. -/
def AreLevel (ks : List Kind) : Prop := ∀ k ∈ ks, ∃ t, k = .token t ∧ IsLevel t

theorem AreLevel.balanced {ks : List Kind} (h : AreLevel ks) : Balanced ks := by
  induction ks with
  | nil => exact fun _ => rfl
  | cons k ks ih =>
    obtain ⟨⟨t, rfl, ht⟩, hks⟩ := List.forall_mem_cons.1 h
    exact (ih hks).token ht

/-- Outside brackets nothing is asked of the gaps between tokens that are no brackets. -/
theorem AreLevel.gapsOutside {ks : List Kind} (h : AreLevel ks) {s : Spot} (hs : s.depth = 0) :
    GapsOutside s ks := by
  induction ks generalizing s with
  | nil => trivial
  | cons k ks ih =>
    obtain ⟨⟨t, rfl, ht⟩, hks⟩ := List.forall_mem_cons.1 h
    exact ⟨fun _ => hs, ih hks ((ht.depthAfter_eq s.depth).trans hs)⟩

/-- A description is a single token, and no bracket. -/
theorem areLevel_description (d : Option String) : AreLevel (descriptionKinds 0 d) := by
  cases d with
  | none => exact nofun
  | some s => exact List.forall_mem_singleton.2 ⟨_, rfl, trivial⟩

theorem areLevel_names (ns : List Name) :
    AreLevel (ns.flatMap fun n => [Mark.ampersand.lexeme, n.lexeme]) := by
  refine List.forall_mem_flatMap.2 fun n _ => ?_
  rw [List.forall_mem_cons]
  exact ⟨⟨_, rfl, rfl, rfl⟩, List.forall_mem_singleton.2 ⟨_, rfl, trivial⟩⟩

/-- The words of a definition that stand outside brackets, the last of them a name, with what
stands behind them. -/
structure IsHeaded (ks : List Kind) (before : List Kind) (last : Name) (rest : List Kind) :
    Prop where
  eq : ks = before ++ last.lexeme :: rest
  level : AreLevel before
  marked : StartsWithMark rest
  balanced : Balanced rest

/-- What is behind the head of a definition does not matter to what is before it. -/
theorem IsHeaded.prepend {ks before rest ls : List Kind} {last : Name}
    (h : IsHeaded ks before last rest) (hls : AreLevel ls) :
    IsHeaded (ls ++ ks) (ls ++ before) last rest :=
  ⟨by rw [h.eq, List.append_assoc], List.forall_mem_append.2 ⟨hls, h.level⟩, h.marked, h.balanced⟩

/-- A type is headed by its shape and its name, or by these and its interfaces. -/
theorem exists_head_type (n : Name) (ds : List Directive) (c : Content) :
    ∃ before last rest, IsHeaded (typeKinds n ds c) before last rest := by
  have hmarked := startsWithMark_inner ds c
  have hbalanced : Balanced (innerKinds ds c) := fun s => (contained_inner ds c s).2
  have hword : AreLevel [c.shape.word.lexeme] :=
    List.forall_mem_singleton.2 ⟨_, rfl, trivial⟩
  rw [typeKinds, contentKinds_eq]
  cases c.interfaces with
  | nil => exact ⟨_, n, _, rfl, hword, hmarked, hbalanced⟩
  | cons i is =>
    -- the last interface ends the head
    have hopen : AreLevel [c.shape.word.lexeme, n.lexeme, implementsWord.lexeme] := by
      simp [AreLevel, IsLevel]
    rcases is.eq_nil_or_concat' with rfl | ⟨js, j, rfl⟩
    · exact ⟨_, i, _, rfl, hopen, hmarked, hbalanced⟩
    · refine ⟨[c.shape.word.lexeme, n.lexeme, implementsWord.lexeme] ++ (i.lexeme ::
        ((js.flatMap fun n => [Mark.ampersand.lexeme, n.lexeme]) ++ [Mark.ampersand.lexeme])), j,
        innerKinds ds c, ?_, ?_, hmarked, hbalanced⟩
      · simp [interfaceKinds, nameKinds_cons]
      · refine List.forall_mem_append.2 ⟨hopen, List.forall_mem_cons.2 ⟨⟨_, rfl, trivial⟩, ?_⟩⟩
        refine List.forall_mem_append.2 ⟨areLevel_names js, ?_⟩
        exact List.forall_mem_singleton.2 ⟨_, rfl, rfl, rfl⟩

theorem enclosed_root (s : SchemaDefinition) (o : Operation) : Enclosed (rootKinds s o) := by
  rw [rootKinds]
  split
  · next n _ =>
    have hname : Enclosed [n.lexeme] := enclosed_token (isLevel_name n)
    exact (Enclosed.token (t := .mark .colon) hname ⟨rfl, rfl⟩).token (isLevel_name o.word)
  · exact enclosed_nil

/-- What stands behind the word that announces a schema. -/
theorem contained_schema (s : SchemaDefinition) :
    ∃ ks, s.kinds = schemaWord.lexeme :: ks ∧ Contained ks ∧ StartsWithMark ks := by
  refine ⟨_, rfl, (contained_directives 0 s.directives).append ?_,
    startsWithMark_directives _ (startsWithMark_cons (m := .openBrace) nofun _)⟩
  have hroots := ((enclosed_root s .query).append ((enclosed_root s .mutation).append
    (enclosed_root s .subscription))).bracketed .openBrace .closeBrace rfl rfl
  simpa using hroots

/-- What comes behind the name of a directive that is defined closes what it opens. -/
theorem balanced_directiveDefinition (d : DirectiveDefinition) :
    Balanced (argumentKinds 0 d.arguments ++
      ((if d.repeatable then [repeatableWord.lexeme] else []) ++ locationKinds d.locations)) := by
  refine Balanced.append (fun s => (contained_arguments 0 d.arguments s).2) ?_
  refine Balanced.append ?_ ?_
  · split
    · exact Balanced.token (fun _ => rfl) trivial
    · exact fun _ => rfl
  · cases d.locations with
    | nil => exact fun _ => rfl
    | cons n ns =>
      have hkinds : locationKinds (n :: ns) = onWord.lexeme :: n.lexeme ::
          ns.flatMap fun n => [Mark.pipe.lexeme, n.lexeme] := by
        simp [locationKinds, nameKinds_cons]
      rw [hkinds]
      have hnames : Balanced (ns.flatMap fun n => [Mark.pipe.lexeme, n.lexeme]) :=
        fun s => (contained_names ⟨rfl, rfl⟩ ns s).2
      exact (hnames.token (isLevel_name n)).token (isLevel_name onWord)

/-- Every definition has a head. -/
theorem Definition.exists_head (d : Definition) :
    ∃ before last rest, IsHeaded d.kinds before last rest := by
  cases d with
  | schema s =>
    obtain ⟨ks, hks, hcontained, hmarked⟩ := contained_schema s
    exact ⟨[], schemaWord, ks, hks, nofun, hmarked, fun s => (hcontained s).2⟩
  | type t =>
    obtain ⟨before, last, rest, h⟩ := exists_head_type t.name t.directives t.content
    exact ⟨_, last, rest, h.prepend (areLevel_description t.description)⟩
  | extension e =>
    obtain ⟨before, last, rest, h⟩ := exists_head_type e.name e.directives e.content
    have hextend : AreLevel [extendWord.lexeme] := List.forall_mem_singleton.2 ⟨_, rfl, trivial⟩
    exact ⟨_, last, rest, h.prepend hextend⟩
  | directive d =>
    refine ⟨descriptionKinds 0 d.description, directiveWord, _, rfl,
      areLevel_description d.description, startsWithMark_cons (m := .atSign) nofun _, ?_⟩
    have hname := (balanced_directiveDefinition d).token (isLevel_name d.name)
    exact hname.token (t := .mark .atSign) ⟨rfl, rfl⟩

/-! ## Gaps of single definitions -/

/-- Behind a mark only the depth matters, and the token before the mark. -/
theorem gaps_congr {P : Nat → Prop} {s s' : Spot} (hdepth : s.depth = s'.depth)
    (hlast : s.passed.last = s'.passed.last) {ks : List Kind} (h : StartsWithMark ks) :
    Gaps P s ks ↔ Gaps P s' ks := by
  cases ks with
  | nil => exact Iff.rfl
  | cons k ks =>
    obtain ⟨m, hm, rfl⟩ := h k rfl
    have hpass : s.pass (.mark m) = s'.pass (.mark m) := by
      have hpassed : s.passed.pass (.mark m) = s'.passed.pass (.mark m) := by
        rw [Passed.pass, Passed.pass, hlast]
        cases m <;> first | rfl | exact absurd rfl hm
      rw [Spot.pass, Spot.pass, hpassed, hdepth]
    show (_ ∧ Gaps P (s.pass (.mark m)) ks) ↔ (_ ∧ Gaps P (s'.pass (.mark m)) ks)
    rw [hpass]
    exact and_congr_left fun _ => ⟨fun _ => nofun, fun _ => nofun⟩

/-- The place where a text begins. -/
def atStart : Spot := ⟨.nothing, 0⟩

/-- All gaps of a definition lie outside brackets. -/
def Definition.KeepsClear (d : Definition) : Prop := GapsOutside atStart d.kinds

/-- A definition ends at the depth at which it begins. -/
theorem passKinds_definition (d : Definition) (s : Spot) :
    (s.passKinds d.kinds).depth = s.depth := by
  obtain ⟨before, last, rest, h⟩ := d.exists_head
  rw [h.eq]
  exact (h.level.balanced.append (h.balanced.token (isLevel_name last))) s

/-- The gaps of a definition do not depend on what stands before it. -/
theorem gapsOutside_definition (d : Definition) {s : Spot} (hs : s.depth = 0) :
    GapsOutside s d.kinds ↔ d.KeepsClear := by
  obtain ⟨before, last, rest, h⟩ := d.exists_head
  -- at the last word of its head a definition forgets what was before it
  have hhead : ∀ s : Spot, s.depth = 0 → (GapsOutside s d.kinds ↔
      GapsOutside ((s.passKinds before).pass (.name last)) rest) := by
    intro s hs
    rw [h.eq, GapsOutside, gaps_append, and_iff_right (h.level.gapsOutside hs)]
    exact and_iff_right fun _ => (h.level.balanced s).trans hs
  rw [Definition.KeepsClear, hhead s hs, hhead atStart rfl]
  refine gaps_congr ?_ ?_ h.marked
  · show (s.passKinds before).depth = (atStart.passKinds before).depth
    rw [h.level.balanced, h.level.balanced, hs]
    rfl
  · rfl

/-- The gaps of printed definitions are those of each of them. -/
theorem gapsOutside_definitions (ds : List Definition) {s : Spot} (hs : s.depth = 0) :
    GapsOutside s (ds.flatMap Definition.kinds) ↔ ∀ d ∈ ds, d.KeepsClear := by
  induction ds generalizing s with
  | nil => exact iff_of_true trivial nofun
  | cons d ds ih =>
    rw [List.flatMap_cons, List.forall_mem_cons, GapsOutside, gaps_append,
      ← gapsOutside_definition d hs]
    exact and_congr_right fun _ => ih ((passKinds_definition d s).trans hs)

/-! ## Repaired definitions -/

/-- The interfaces of a type, with a separator in front of the first one if it is asked for. -/
def ledInterfaceKinds (lead : Bool) (is : List Name) : List Kind :=
  if is.isEmpty then []
  else implementsWord.lexeme ::
    ((if lead then [Mark.ampersand.lexeme] else []) ++ nameKinds .ampersand is)

/-- A definition of a type, or an addition to it, with such a separator. -/
def ledTypeKinds (lead : Bool) (n : Name) (ds : List Directive) (c : Content) : List Kind :=
  c.shape.word.lexeme :: n.lexeme :: (ledInterfaceKinds lead c.interfaces ++ innerKinds ds c)

/-- A definition with such a separator. -/
def Definition.ledKinds (lead : Bool) : Definition → List Kind
  | .type t => descriptionKinds 0 t.description ++ ledTypeKinds lead t.name t.directives t.content
  | .extension e => extendWord.lexeme :: ledTypeKinds lead e.name e.directives e.content
  | .schema s => s.kinds
  | .directive d => d.kinds

/-- Where no separator lacks, a repair passes on. -/
theorem repairKinds_token {p : Passed} {t : Token} (h : p.lacksSeparator t = false)
    (ks : List Kind) : repairKinds p (.token t :: ks) = .token t :: repairKinds (p.pass t) ks := by
  rw [repairKinds, if_neg (by simp [h])]

/-- In front of the word that a definition begins with, no separator is put in. -/
theorem lacksSeparator_definitionWord (p : Passed) {n : Name}
    (h : n.text ∈ Document.Implements.definitionWords) : p.lacksSeparator (.name n) = false := by
  simp [Passed.lacksSeparator, h]

theorem shapeWord_mem (s : Shape) : s.word.text ∈ Document.Implements.definitionWords := by
  cases s <;> decide

/-- **Types.**  A repair puts in at most one separator outside brackets, before the first
interface. -/
theorem exists_repairKinds_type {s : Spot} {n : Name} {ds : List Directive}
    {c : Content} (h : GapsOutside s (typeKinds n ds c)) :
    ∃ lead, repairKinds s.passed (typeKinds n ds c) = ledTypeKinds lead n ds c := by
  have hword := shapeWord_mem c.shape
  -- the name of a type comes outside all lists, and what follows it is no interface yet
  have hplace := s.passed.place_pass_definitionWord hword
  have hplace' := Passed.place_pass_ne_of_outside (n := n) hplace
  rw [typeKinds, contentKinds_eq] at h ⊢
  obtain ⟨-, -, h⟩ := h
  rw [repairKinds_token (lacksSeparator_definitionWord _ hword),
    repairKinds_token (Passed.lacksSeparator_of_place (by simp [hplace]) _)]
  have hnone : ∀ {ks : List Kind} {s : Spot}, Contained ks → GapsOutside s ks →
      repairKinds s.passed ks = ks :=
    fun {_ s} hks hout => Document.repairKinds_of_gaps (hks s).1 hout
  unfold ledTypeKinds
  cases hinterfaces : c.interfaces with
  | nil =>
    rw [hinterfaces] at h
    exact ⟨false, congrArg (_ :: _ :: ·) (hnone (contained_inner ds c) h)⟩
  | cons i is =>
    rw [hinterfaces] at h
    have hkinds : interfaceKinds (i :: is) ++ innerKinds ds c =
        implementsWord.lexeme :: i.lexeme ::
          ((is.flatMap fun n => [Mark.ampersand.lexeme, n.lexeme]) ++ innerKinds ds c) := by
      simp [interfaceKinds, nameKinds_cons]
    have hrest := (contained_names (m := .ampersand) ⟨rfl, rfl⟩ is).append (contained_inner ds c)
    rw [hkinds] at h ⊢
    obtain ⟨-, -, h⟩ := h
    rw [repairKinds_token (Passed.lacksSeparator_of_place hplace' _), repairKinds]
    have hsame := hnone hrest h
    split
    · refine ⟨true, ?_⟩
      simp only [ledInterfaceKinds, nameKinds_cons]
      exact congrArg (_ :: _ :: _ :: _ :: _ :: ·) hsame
    · refine ⟨false, ?_⟩
      simp only [ledInterfaceKinds, nameKinds_cons]
      exact congrArg (_ :: _ :: _ :: _ :: ·) hsame

/-- A name that comes outside all lists is no gap. -/
theorem gapsInside_name {s : Spot} (hplace : s.passed.place = .outside) {n : Name}
    {ks : List Kind} (h : GapsInside (s.pass (.name n)) ks) : GapsInside s (n.lexeme :: ks) := by
  have hlacks := Passed.lacksSeparator_of_place (p := s.passed) (by simp [hplace]) (.name n)
  exact ⟨fun ht => absurd (hlacks.symm.trans ht) Bool.false_ne_true, h⟩

/-- The locations of a directive, which are no interfaces, have no gap outside brackets. -/
theorem gapsInside_locations {s : Spot} (hplace : s.passed.place = .outside) (ns : List Name) :
    GapsInside s (locationKinds ns) := by
  cases ns with
  | nil => trivial
  | cons n ns =>
    have hkinds : locationKinds (n :: ns) = onWord.lexeme :: n.lexeme ::
        ns.flatMap fun n => [Mark.pipe.lexeme, n.lexeme] := by
      simp [locationKinds, nameKinds_cons]
    have hon : (s.pass (.name onWord)).passed.place = .outside :=
      Passed.place_pass_of_outside hplace (Or.inl (by decide))
    rw [hkinds]
    exact gapsInside_name hplace (gapsInside_name hon (contained_names ⟨rfl, rfl⟩ ns _).1)

/-- What a place is behind the arguments of a directive. -/
theorem place_passKinds_arguments {s : Spot} (hplace : s.passed.place = .outside)
    (vs : List InputValue) : (s.passKinds (argumentKinds 0 vs)).passed.place = .outside := by
  rw [argumentKinds]
  split
  · exact hplace
  · rw [← List.cons_append, Spot.passKinds_append]
    exact Passed.place_pass_of_ne_ampersand _ (m := .closeParen) (by decide)

/-- The definition of a directive has gaps only in its arguments. -/
theorem gapsInside_directive (d : DirectiveDefinition) (s : Spot) : GapsInside s d.kinds := by
  have hrest : ∀ s : Spot, s.passed.place = .outside → GapsInside s
      ((if d.repeatable then [repeatableWord.lexeme] else []) ++ locationKinds d.locations) := by
    intro s hplace
    split
    · refine gapsInside_name hplace (gapsInside_locations ?_ d.locations)
      exact Passed.place_pass_of_outside hplace (Or.inl (by decide))
    · exact gapsInside_locations hplace d.locations
  have hword : ∀ s : Spot, GapsInside s (directiveWord.lexeme :: Mark.atSign.lexeme ::
      d.name.lexeme :: (argumentKinds 0 d.arguments ++
        ((if d.repeatable then [repeatableWord.lexeme] else []) ++
          locationKinds d.locations))) := by
    intro s
    have hlacks : s.passed.lacksSeparator (.name directiveWord) = false :=
      lacksSeparator_definitionWord _ (by decide)
    -- directly behind a mark no name opens a list
    have hname : (((s.pass (.name directiveWord)).pass (.mark .atSign)).pass
        (.name d.name)).passed.place = .outside :=
      Passed.place_pass_of_outside rfl (Or.inr rfl)
    refine ⟨fun ht => absurd (hlacks.symm.trans ht) Bool.false_ne_true,
      fun ht => absurd ht Bool.false_ne_true, ?_⟩
    refine gapsInside_name rfl (gaps_append.2 ⟨(contained_arguments 0 d.arguments _).1, ?_⟩)
    exact hrest _ (place_passKinds_arguments hname d.arguments)
  rw [DirectiveDefinition.kinds]
  cases d.description with
  | none => exact hword s
  | some text => exact ⟨fun ht => absurd ht Bool.false_ne_true, hword _⟩

/-- **Repairs.**  A definition whose gaps all lie outside brackets gets at most one separator. -/
theorem Definition.exists_repairKinds (d : Definition) {s : Spot}
    (h : GapsOutside s d.kinds) : ∃ lead, repairKinds s.passed d.kinds = d.ledKinds lead := by
  cases d with
  | schema s' =>
    obtain ⟨ks, hks, hcontained, -⟩ := contained_schema s'
    have hlacks : s.passed.lacksSeparator (.name schemaWord) = false :=
      lacksSeparator_definitionWord _ (by decide)
    refine ⟨false, Document.repairKinds_of_gaps ?_ h⟩
    show GapsInside s s'.kinds
    rw [hks]
    exact ⟨fun ht => absurd (hlacks.symm.trans ht) Bool.false_ne_true, (hcontained _).1⟩
  | type t =>
    simp only [kinds, ledKinds] at h ⊢
    cases hd : t.description with
    | none =>
      rw [hd] at h
      exact exists_repairKinds_type h
    | some text =>
      rw [hd] at h
      obtain ⟨lead, hlead⟩ := exists_repairKinds_type h.2
      exact ⟨lead, congrArg (_ :: ·) hlead⟩
  | extension e =>
    have hlacks : s.passed.lacksSeparator (.name extendWord) = false :=
      lacksSeparator_definitionWord _ (by decide)
    obtain ⟨lead, hlead⟩ := exists_repairKinds_type h.2
    refine ⟨lead, ?_⟩
    rw [kinds, repairKinds_token hlacks]
    exact congrArg (_ :: ·) hlead
  | directive d =>
    exact ⟨false, Document.repairKinds_of_gaps (gapsInside_directive d s) h⟩

/-! ## Reading repaired definitions -/

/-- Rules that read some kinds like others go on alike. -/
theorem feed_bind_congr {ε α β : Type} {r : Rule ε α} {ks ls : List Kind}
    (h : r.feed ks = r.feed ls) (f : α → Rule ε β) : (r >>= f).feed ks = (r >>= f).feed ls := by
  have hbind : ∀ ks, (r >>= f).feed ks = (r.feed ks).bind fun p => (f p.1).runKinds p.2 := by
    intro ks
    rw [feed, feed, Option.bind_assoc]
    exact congrArg _ (funext fun ahead => runKinds_bind r f ahead)
  rw [hbind, hbind, h]

/-- A separator in front of the first interface makes no difference. -/
theorem feed_ledInterfaces (fuel : Nat) (lead : Bool) (is : List Name) (ks : List Kind) :
    (Document.implements fuel).feed (ledInterfaceKinds lead is ++ ks) =
      (Document.implements fuel).feed (interfaceKinds is ++ ks) := by
  cases lead with
  | false => rfl
  | true =>
    cases is with
    | nil => rfl
    | cons i is =>
      have hname : Next (· ≠ some (.mark .ampersand)) (nameKinds .ampersand (i :: is) ++ ks) := by
        simp [nameKinds_cons]
      have hled : ledInterfaceKinds true (i :: is) ++ ks = implementsWord.lexeme ::
          Mark.ampersand.lexeme :: (nameKinds .ampersand (i :: is) ++ ks) := by
        simp [ledInterfaceKinds]
      have hplain : interfaceKinds (i :: is) ++ ks =
          implementsWord.lexeme :: (nameKinds .ampersand (i :: is) ++ ks) := by
        simp [interfaceKinds]
      rw [hled, hplain, Document.implements, feed_takeWord implementsWord_text,
        feed_takeWord implementsWord_text]
      simp only [if_true, feed_takeMark, feed_takeMark_of_next hname]

/-- A body is read alike with and without a separator in front of its first interface. -/
theorem feed_ledBody (fuel : Nat) (lead : Bool) (c : Content) (ks : List Kind) :
    (Document.body fuel c.shape).feed (ledInterfaceKinds lead c.interfaces ++ ks) =
      (Document.body fuel c.shape).feed (interfaceKinds c.interfaces ++ ks) := by
  cases c with
  | interface is fs | object is fs =>
    exact feed_bind_congr (feed_ledInterfaces fuel lead is ks) _
  | enum | inputObject | scalar | union => rfl

/-- A repaired definition is read as it was printed. -/
theorem feed_ledDefinition (fuel : Nat) (lead : Bool) (d : Definition) (rest : List Kind) :
    (Document.definition fuel).feed (d.ledKinds lead ++ rest) =
      (Document.definition fuel).feed (d.kinds ++ rest) := by
  -- a definition of a type and an addition read their bodies behind the name
  have hbody : ∀ {α : Type} (n : Name) (ds : List Directive) (c : Content)
      (f : Document.Body → Document.Production α),
      (Document.body fuel c.shape >>= f).feed
          (ledInterfaceKinds lead c.interfaces ++ innerKinds ds c ++ rest) =
        (Document.body fuel c.shape >>= f).feed (contentKinds ds c ++ rest) := by
    intro α n ds c f
    rw [contentKinds_eq, List.append_assoc, List.append_assoc]
    exact feed_bind_congr (feed_ledBody fuel lead c _) f
  cases d with
  | schema | directive => rfl
  | type t =>
    have hopen : ∀ ks, (Document.definition fuel).feed
        (descriptionKinds 0 t.description ++ t.content.shape.word.lexeme :: ks) =
          (Document.typeDefinition fuel t.content.shape).feed
            (descriptionKinds 0 t.description ++ t.content.shape.word.lexeme :: ks) := by
      intro ks
      rw [← definitionFor_shape]
      cases t.description <;> rfl
    simp only [Definition.ledKinds, Definition.kinds, ledTypeKinds, typeKinds, List.append_assoc,
      List.cons_append, hopen, Document.typeDefinition, feed_bind (feed_description _ _ _),
      Option.bind_some, feed_skip, feed_bind (feed_nameOr _ _ _)]
    simpa using hbody t.name t.directives t.content _
  | extension e =>
    simp only [Definition.ledKinds, Definition.kinds, ledTypeKinds, typeKinds,
      List.cons_append, extensionDefinition_shape, Document.typeExtension, feed_skip,
      Document.name, feed_bind (feed_nameOr _ _ _), Option.bind_some]
    exact hbody e.name e.directives e.content _

/-! ## Repaired texts -/

/-- The definitions of a repaired text, each with whether it gets a separator. -/
theorem exists_leads (ds : List Definition) {s : Spot}
    (h : GapsOutside s (ds.flatMap Definition.kinds)) :
    ∃ leads : List (Bool × Definition), leads.map Prod.snd = ds ∧
      repairKinds s.passed (ds.flatMap Definition.kinds) =
        leads.flatMap fun x => x.2.ledKinds x.1 := by
  induction ds generalizing s with
  | nil => exact ⟨[], rfl, rfl⟩
  | cons d ds ih =>
    rw [List.flatMap_cons, GapsOutside, gaps_append] at h
    obtain ⟨lead, hlead⟩ := d.exists_repairKinds h.1
    obtain ⟨leads, rfl, hleads⟩ := ih h.2
    refine ⟨(lead, d) :: leads, rfl, ?_⟩
    rw [List.flatMap_cons, Document.repairKinds_append, hlead, hleads, List.flatMap_cons]

/-- What a definition begins with ends the one before it. -/
theorem next_ledDefinition (lead : Bool) (d : Definition) (rest : List Kind) :
    Next (fun t => t.isSome = true ∧ EndsDefinition t) (d.ledKinds lead ++ rest) := by
  have h := next_definition d rest
  cases d with
  | schema | directive => exact h
  | extension e => exact next_token.2 (next_token.1 h)
  | type t =>
    simp only [Definition.kinds, Definition.ledKinds] at h ⊢
    cases hd : t.description <;> rw [hd] at h <;> exact next_token.2 (next_token.1 h)

/-- Repaired definitions are read one by one. -/
theorem readsEach_leads {fuel : Nat} {leads : List (Bool × Definition)}
    (hfuel : ∀ d ∈ leads.map Prod.snd, tokenCount d.kinds ≤ fuel) :
    ReadsEach (Document.definition fuel) Option.isSome EndsDefinition leads
      (fun x => x.2.ledKinds x.1) fun x => x.2.reread? where
  counts x _ := by
    obtain ⟨lead, d⟩ := x
    cases d <;> simp only [Definition.ledKinds, ledTypeKinds, SchemaDefinition.kinds,
      DirectiveDefinition.kinds, tokenCount_append, tokenCount_token] <;> omega
  begins x _ rest := next_ledDefinition x.1 x.2 rest
  reads x hx rest hrest := by
    rw [feed_ledDefinition]
    exact (readsEach_definitions hfuel).reads x.2 (List.mem_map_of_mem hx) rest hrest

/-- What is read of definitions whose gaps all lie outside brackets, once they are repaired. -/
theorem feed_repairKinds {ds : List Definition} (hds : ds ≠ [])
    (h : ∀ d ∈ ds, d.KeepsClear) :
    (Document.document (tokenCount (repairKinds .nothing (ds.flatMap Definition.kinds)))).feed
        (repairKinds .nothing (ds.flatMap Definition.kinds)) =
      leaving [] (ds.mapM Definition.reread?) := by
  have hle := Document.tokenCount_le_repairKinds .nothing (ds.flatMap Definition.kinds)
  obtain ⟨leads, rfl, hleads⟩ :=
    exists_leads ds ((gapsOutside_definitions ds (s := atStart) rfl).2 h)
  have hrepaired : repairKinds .nothing ((leads.map Prod.snd).flatMap Definition.kinds) =
      leads.flatMap fun x => x.2.ledKinds x.1 := hleads
  rw [hrepaired] at hle ⊢
  cases leads with
  | nil => exact absurd rfl hds
  | cons x leads =>
    rw [feed_document_of_readsEach (readsEach_leads fun d hd => ?_) (Nat.le_refl _)]
    · rw [List.mapM_map]
      rfl
    · exact Nat.le_trans (tokenCount_le_flatMap hd Definition.kinds) hle

/-- A repair puts in nothing but marks, so it makes no flaws. -/
theorem isClean_repairKinds {ks : List Kind} (h : Document.IsClean ks) (p : Passed) :
    Document.IsClean (repairKinds p ks) := by
  induction h generalizing p with
  | nil => exact .nil
  | comma _ ih => exact (ih p).comma
  | token t _ ih =>
    rw [repairKinds]
    split
    · exact ((ih _).token t).token (.mark .ampersand)
    · exact (ih _).token t

/-- A printed text that can be read once it is repaired has no gaps inside brackets. -/
theorem keepsClear_of_definitionsOf {ds : List Definition} {es : List Document.Definition}
    (h : Catalog.definitionsOf (write ds) = .ok es) : ∀ d ∈ ds, d.KeepsClear := by
  have hkinds : Document.kindsIn (write ds).toList = ds.flatMap Definition.kinds :=
    kindsIn_write ds
  rw [Document.definitionsOf_eq_ok_iff, hkinds] at h
  have hflaw := flawCount_of_feed _ h
  rw [flawCount_repairKinds, ← hkinds] at hflaw
  have hclean := Document.isClean_kindsIn hflaw
  rw [hkinds] at hclean
  have hseparators := Document.separatorsOutside_of_feed h (isClean_repairKinds hclean .nothing)
  exact (gapsOutside_definitions ds (s := atStart) rfl).1
    (Document.gapsOutside_of_separators (s := atStart) hseparators)

/-- What is printed is read, once the text is repaired, as what is read back of each definition,
if no definition has gaps inside brackets. -/
theorem definitionsOf_write_eq_ok_iff {ds : List Definition} (hds : ds ≠ [])
    {es : List Document.Definition} : Catalog.definitionsOf (write ds) = .ok es ↔
      (∀ d ∈ ds, d.KeepsClear) ∧ ds.mapM Definition.reread? = some es := by
  have hread : ∀ hclear : ∀ d ∈ ds, d.KeepsClear, Catalog.definitionsOf (write ds) = .ok es ↔
      ds.mapM Definition.reread? = some es := fun hclear => by
    rw [Document.definitionsOf_eq_ok_iff, kindsIn_write, feed_repairKinds hds hclear]
    cases ds.mapM Definition.reread? <;> simp [leaving, settleKinds]
  constructor
  · intro h
    have hclear := keepsClear_of_definitionsOf h
    exact ⟨hclear, (hread hclear).1 h⟩
  · rintro ⟨hclear, h⟩
    exact (hread hclear).2 h

/-- **Printed texts.**  Sound definitions that are printed can be read, once the text is
repaired, exactly if each of them is plain and has no gaps inside brackets. -/
theorem exists_definitionsOf_write_iff {ds : List Definition} (hds : ds ≠ [])
    (hsound : ∀ d ∈ ds, d.IsSound) :
    (∃ es, Catalog.definitionsOf (write ds) = .ok es) ↔ ∀ d ∈ ds, d.IsPlain ∧ d.KeepsClear := by
  have hplain : (∃ es, ds.mapM Definition.reread? = some es) ↔ ∀ d ∈ ds, d.IsPlain := by
    rw [← Option.isSome_iff_exists, isSome_mapM_iff]
    exact forall₂_congr fun d hd => isSome_reread?_iff (hsound d hd)
  simp only [definitionsOf_write_eq_ok_iff hds, exists_and_left, hplain]
  rw [forall₂_and, and_comm]

/-- **Merged texts.**  What two or more fragments are merged into can be read, once its text is
repaired, exactly if each merged definition by itself can be: it is plain, and no names inside
its brackets look like the head of a type with an old list of interfaces.  What stands next to
a definition does not matter. -/
theorem mergedText_legible {texts : List String} (hlength : 2 ≤ texts.length) {text : String}
    (h : mergedText texts = .ok text) :
    ∃ ds, mergeTexts texts = .ok ds ∧ text = write ds ∧
      ((∃ es, Catalog.definitionsOf text = .ok es) ↔ ∀ d ∈ ds, d.IsPlain ∧ d.KeepsClear) := by
  have htexts : texts ≠ [] := by
    rintro rfl
    exact absurd hlength (by decide)
  have hmap : mergedText texts = (mergeTexts texts).map write :=
    mergedText_eq (by omega)
  rw [hmap, Attempt.map_eq_ok_iff] at h
  obtain ⟨ds, hmerge, rfl⟩ := h
  obtain ⟨hds, hsound⟩ := isSound_of_mergeTexts htexts hmerge
  exact ⟨ds, hmerge, rfl, exists_definitionsOf_write_iff hds hsound⟩

/-- Two enums that can be read, with the values `type`, `A`, `implements`, `B` and `C`, `D`, are
merged into one that cannot: it is repaired inside its braces. -/
theorem mergedText_legible_of_enum_values :
    let texts := ["enum E {type A implements B}", "enum E {C D}"]
    let text := "enum E \x7b\n  type\n  A\n  implements\n  B\n  C\n  D\n\x7d\n"
    mergedText texts = .ok text ∧
      Catalog.definitionsOf text = .error ⟨39, "expected R_CURLY, got &"⟩ ∧
      ∃ ds, mergeTexts texts = .ok ds ∧ ¬∀ d ∈ ds, d.IsPlain ∧ d.KeepsClear := by
  intro texts text
  have htext : mergedText texts = .ok text := by rfl
  have hrepair : Document.Implements.repair
      "enum E \x7b\n  type\n  A\n  implements\n  B\n  C\n  D\n\x7d\n" =
      "enum E \x7b\n  type\n  A\n  implements\n  B\n  & C\n  & D\n\x7d\n" := by rfl
  have hrefused : Catalog.definitionsOf text = .error ⟨39, "expected R_CURLY, got &"⟩ := by
    rw [Catalog.definitionsOf, hrepair]
    rfl
  obtain ⟨ds, hds, -, hlegible⟩ := mergedText_legible (by decide) htext
  refine ⟨htext, hrefused, ds, hds, fun hall => ?_⟩
  obtain ⟨es, hes⟩ := hlegible.2 hall
  rw [hrefused] at hes
  cases hes

end SchemaCatalog.Fragment

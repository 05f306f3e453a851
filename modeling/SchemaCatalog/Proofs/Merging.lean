/-
# What merging comes to

Definitions are merged one after the other, and places are remembered where they are
found again.  The outcome is compared with the sequence of the definitions: the first
of each subject stays at its place, and those of the same subject that come later are
absorbed by it.
-/
import Mathlib.Data.List.Induction
import SchemaCatalog.Fragment.Merge
import SchemaCatalog.Proofs.Objections

namespace SchemaCatalog.Fragment

/-! ## What definitions define -/

/-- What a definition can define. -/
inductive Subject where
  | schema
  | type (name : String)
  | directive (name : String)
  deriving DecidableEq

/-- What a definition defines, if it is more than an addition. -/
def Definition.subject? : Definition → Option Subject
  | .schema _ => some .schema
  | .type t => some (.type t.name.text)
  | .directive d => some (.directive d.name.text)
  | .extension _ => none

/-- The definition of a type that a definition is, if it is one. -/
@[simp] def Definition.type? : Definition → Option TypeDefinition
  | .type t => some t
  | _ => none

/-- The definition of the schema that a definition is, if it is one. -/
@[simp] def Definition.schema? : Definition → Option SchemaDefinition
  | .schema s => some s
  | _ => none

/-- The definition of a directive that a definition is, if it is one. -/
@[simp] def Definition.directive? : Definition → Option DirectiveDefinition
  | .directive d => some d
  | _ => none

/-- The addition that a definition is, if it is one. -/
@[simp] def Definition.extension? : Definition → Option TypeExtension
  | .extension e => some e
  | _ => none

/-- The definitions of one type, in order. -/
def typeDefinitions (name : String) (ds : List Definition) : List TypeDefinition :=
  (ds.filterMap Definition.type?).filter (·.name.text = name)

/-- The definitions of the schema, in order. -/
def schemaDefinitions (ds : List Definition) : List SchemaDefinition :=
  ds.filterMap Definition.schema?

/-- The definitions of one directive, in order. -/
def directiveDefinitions (name : String) (ds : List Definition) : List DirectiveDefinition :=
  (ds.filterMap Definition.directive?).filter (·.name.text = name)

/-- The additions to types, in order. -/
def typeExtensions (ds : List Definition) : List TypeExtension :=
  ds.filterMap Definition.extension?

/-- The type that an operation starts from, as the first definition tells that binds it. -/
def boundRoot (o : Operation) (ds : List Definition) : Option Name :=
  (schemaDefinitions ds).findSome? (·.root o)

/-! ## Conflicts -/

/-- Why an operation cannot start from both of two types. -/
def rootConflict? (o : Operation) : Option Name → Option Name → Option Conflict
  | some e, some l => if e.text = l.text then none else some (.roots o e.text l.text)
  | _, _ => none

/-- What in a definition conflicts with the definitions before it: a type has the shape
of its first definition, and an operation starts from the type that it was first bound
to.  Queries come before mutations and these before subscriptions. -/
def conflict? (before : List Definition) : Definition → Option Conflict
  | .type t =>
    (typeDefinitions t.name.text before).head?.bind fun first =>
      if first.content.shape = t.content.shape then none
      else some (.shapes t.name.text first.content.shape t.content.shape)
  | .schema s =>
    [Operation.query, .mutation, .subscription].findSome? fun o =>
      rootConflict? o (boundRoot o before) (s.root o)
  | .directive _ | .extension _ => none

/-- No definition of a sequence conflicts with those before it. -/
def Harmonious (ds : List Definition) : Prop := ClearAfter conflict? [] ds

/-- Two sequences in a row are harmonious if the first is and the second fits it. -/
theorem harmonious_append {ds es : List Definition} :
    Harmonious (ds ++ es) ↔ Harmonious ds ∧ ClearAfter conflict? ds es :=
  clearAfter_append

/-! ## Absorbing later definitions -/

/-- The contents of two definitions of one type.  Contents of another shape add nothing. -/
def Content.absorb (c later : Content) : Content := (c.merge? later).getD c

/-- The definition of a type with what a later one adds. -/
def TypeDefinition.absorb (t later : TypeDefinition) : TypeDefinition where
  description := t.description <|> later.description
  name := t.name
  directives := mergeDirectives t.directives later.directives
  content := t.content.absorb later.content

/-- The definition of the schema with what a later one adds. -/
def SchemaDefinition.absorb (s later : SchemaDefinition) : SchemaDefinition where
  directives := mergeDirectives s.directives later.directives
  query := s.query <|> later.query
  mutation := s.mutation <|> later.mutation
  subscription := s.subscription <|> later.subscription

/-- A definition with what a later one of the same subject adds. -/
def Definition.absorb : Definition → Definition → Definition
  | .type t, .type later => .type (t.absorb later)
  | .schema s, .schema later => .schema (s.absorb later)
  | d, _ => d

/-- Contents can be merged exactly if they have the same shape. -/
theorem Content.merge?_eq (c d : Content) :
    c.merge? d = if c.shape = d.shape then some (c.absorb d) else none := by
  cases c <;> cases d <;> rfl

@[simp] theorem Content.shape_absorb (c d : Content) : (c.absorb d).shape = c.shape := by
  cases c <;> cases d <;> rfl

@[simp] theorem TypeDefinition.name_absorb (t later : TypeDefinition) :
    (t.absorb later).name = t.name := rfl

@[simp] theorem TypeDefinition.shape_absorb (t later : TypeDefinition) :
    (t.absorb later).content.shape = t.content.shape :=
  Content.shape_absorb t.content later.content

/-- Two definitions of a type are merged by absorption, if their shapes agree. -/
theorem TypeDefinition.merge_eq (t later : TypeDefinition) :
    t.merge later =
      if t.content.shape = later.content.shape then .ok (t.absorb later)
      else .error (.shapes t.name.text t.content.shape later.content.shape) := by
  rw [TypeDefinition.merge, Content.merge?_eq]
  by_cases h : t.content.shape = later.content.shape
  · simp only [if_pos h]
    rfl
  · simp only [if_neg h]

@[simp] theorem SchemaDefinition.root_absorb (s later : SchemaDefinition) (o : Operation) :
    (s.absorb later).root o = (s.root o <|> later.root o) := by
  cases o <;> rfl

/-- The roots of an operation are merged if they do not conflict. -/
theorem mergeRoot_eq (o : Operation) (earlier later : Option Name) :
    mergeRoot o earlier later =
      match rootConflict? o earlier later with
      | some c => .error c
      | none => .ok (earlier <|> later) := by
  cases earlier with
  | none => rfl
  | some e =>
    cases later with
    | none => rfl
    | some l =>
      rw [mergeRoot, rootConflict?]
      split <;> rfl

/-- Two definitions of the schema are merged by absorption, if no operation has two
roots. -/
theorem SchemaDefinition.merge_eq (s later : SchemaDefinition) :
    s.merge later =
      match [Operation.query, .mutation, .subscription].findSome? fun o =>
        rootConflict? o (s.root o) (later.root o) with
      | some c => .error c
      | none => .ok (s.absorb later) := by
  simp only [SchemaDefinition.merge, mergeRoot_eq, List.findSome?_cons, List.findSome?_nil, root]
  cases rootConflict? .query s.query later.query with
  | some c => rfl
  | none =>
    cases rootConflict? .mutation s.mutation later.mutation with
    | some c => rfl
    | none =>
      cases rootConflict? .subscription s.subscription later.subscription <;> rfl

@[simp] theorem Definition.subject?_absorb (d later : Definition) :
    (d.absorb later).subject? = d.subject? := by
  cases d <;> cases later <;> rfl

/-! ## The merged definitions -/

/-- Whether something was defined that a definition defines. -/
def isKnown (before : List Definition) (d : Definition) : Bool :=
  before.any fun e => e.subject? = d.subject? && e.subject?.isSome

/-- The additions, and of the definitions the first of each subject. -/
def leaders (ds : List Definition) : List Definition :=
  ds.foldl (fun kept d => if isKnown kept d then kept else kept ++ [d]) []

/-- The definitions of one subject, in order. -/
def defining (s : Subject) (ds : List Definition) : List Definition :=
  ds.filter (·.subject? = some s)

/-- The first definition of a subject with all that the later ones add. -/
def combined (ds : List Definition) (first : Definition) : Definition :=
  match first.subject? with
  | some s => (defining s ds).tail.foldl Definition.absorb first
  | none => first

/-- What a sequence of definitions comes to. -/
def merged (ds : List Definition) : List Definition := (leaders ds).map (combined ds)

theorem leaders_concat (ds : List Definition) (d : Definition) :
    leaders (ds ++ [d]) =
      if isKnown (leaders ds) d then leaders ds else leaders ds ++ [d] := by
  rw [leaders, List.foldl_append]
  rfl

theorem defining_concat (s : Subject) (ds : List Definition) (d : Definition) :
    defining s (ds ++ [d]) = defining s ds ++ if d.subject? = some s then [d] else [] := by
  simp only [defining, List.filter_append, List.filter_cons, List.filter_nil, decide_eq_true_eq]

/-- What defines nothing is not known. -/
theorem isKnown_of_subject?_eq_none {ds : List Definition} {d : Definition}
    (h : d.subject? = none) : isKnown ds d = false := by
  rw [isKnown, List.any_eq_false]
  intro e he
  rw [h]
  cases e.subject? <;> simp

/-- What defines something is known if there is a definition of the same subject. -/
theorem isKnown_iff {ds : List Definition} {d : Definition} {s : Subject}
    (h : d.subject? = some s) :
    isKnown ds d = true ↔ ∃ e ∈ ds, e.subject? = some s := by
  simp only [isKnown, List.any_eq_true, h, Bool.and_eq_true, decide_eq_true_eq]
  constructor
  · rintro ⟨e, he, hs, -⟩
    exact ⟨e, he, hs⟩
  · rintro ⟨e, he, hs⟩
    exact ⟨e, he, hs, by simp [hs]⟩

theorem isKnown_concat (ds : List Definition) (e d : Definition) :
    isKnown (ds ++ [e]) d = (isKnown ds d || isKnown [e] d) := by
  simp [isKnown]

/-- What defines a known subject makes nothing more known. -/
theorem isKnown_concat_of_known {ds : List Definition} {d : Definition}
    (hd : isKnown ds d = true) (e : Definition) : isKnown (ds ++ [d]) e = isKnown ds e := by
  rw [isKnown_concat]
  cases he : isKnown [d] e with
  | false => simp
  | true =>
    -- the two have the same subject, so that one is known with the other
    have hsame : d.subject? = e.subject? := by
      simp only [isKnown, List.any_cons, List.any_nil, Bool.or_false, Bool.and_eq_true,
        decide_eq_true_eq] at he
      exact he.1
    rw [isKnown, hsame, ← isKnown] at hd
    rw [hd, Bool.true_or]

/-- The leaders define what the whole sequence defines. -/
theorem isKnown_leaders (ds : List Definition) (d : Definition) :
    isKnown (leaders ds) d = isKnown ds d := by
  induction ds using List.reverseRecOn generalizing d with
  | nil => rfl
  | append_singleton ds e ih =>
    rw [leaders_concat]
    split
    · next he =>
      rw [ih] at he
      rw [ih, isKnown_concat_of_known he]
    · rw [isKnown_concat, isKnown_concat, ih]

/-- A definition leads if its subject was not known. -/
theorem leaders_concat_eq (ds : List Definition) (d : Definition) :
    leaders (ds ++ [d]) = leaders ds ++ if isKnown ds d then [] else [d] := by
  rw [leaders_concat, isKnown_leaders]
  split <;> simp

/-- The leaders are among the definitions. -/
theorem subset_leaders (ds : List Definition) : leaders ds ⊆ ds := by
  induction ds using List.reverseRecOn with
  | nil => exact List.Subset.refl _
  | append_singleton ds d ih =>
    rw [leaders_concat_eq]
    refine List.append_subset.2 ⟨fun e he => List.mem_append_left _ (ih he), ?_⟩
    split
    · exact List.nil_subset _
    · exact List.subset_append_right _ _

/-- What a leader defines is known. -/
theorem isKnown_of_leader {ds : List Definition} {d e : Definition} {s : Subject} {i : Nat}
    (hi : (leaders ds)[i]? = some e) (hs : e.subject? = some s) (hd : d.subject? = some s) :
    isKnown ds d = true := by
  rw [← isKnown_leaders]
  exact (isKnown_iff hd).2 ⟨e, List.mem_of_getElem? hi, hs⟩

/-- No two leaders define the same thing. -/
theorem pairwise_leaders (ds : List Definition) :
    (leaders ds).Pairwise fun a b => a.subject? = b.subject? → a.subject? = none := by
  induction ds using List.reverseRecOn with
  | nil => exact List.Pairwise.nil
  | append_singleton ds d ih =>
    rw [leaders_concat]
    split
    · exact ih
    · next hd =>
      refine List.pairwise_append.2 ⟨ih, List.pairwise_singleton _ _, ?_⟩
      intro a ha b hb hab
      rw [List.mem_singleton.1 hb] at hab
      cases hs : a.subject? with
      | none => rfl
      | some s => exact absurd ((isKnown_iff (hab ▸ hs)).2 ⟨a, ha, hs⟩) hd

/-- Nothing defines a subject that is new. -/
theorem defining_eq_nil_of_new {ds : List Definition} {d : Definition} {s : Subject}
    (hs : d.subject? = some s) (hd : isKnown ds d = false) : defining s ds = [] := by
  rw [defining, List.filter_eq_nil_iff]
  intro a ha has
  rw [(isKnown_iff hs).2 ⟨a, ha, of_decide_eq_true has⟩] at hd
  cases hd

/-- A leader is the first definition of its subject. -/
theorem head?_defining_of_mem_leaders {ds : List Definition} {e : Definition} {s : Subject}
    (he : e ∈ leaders ds) (hs : e.subject? = some s) : (defining s ds).head? = some e := by
  induction ds using List.reverseRecOn with
  | nil => cases he
  | append_singleton ds d ih =>
    rw [leaders_concat_eq, List.mem_append] at he
    rw [defining_concat]
    rcases he with he | he
    · rw [List.head?_append, ih he]
      rfl
    · split at he
      · cases he
      · next hd =>
        obtain rfl := List.mem_singleton.1 he
        rw [defining_eq_nil_of_new hs (by simpa using hd), if_pos hs]
        rfl

@[simp] theorem subject?_combined (ds : List Definition) (e : Definition) :
    (combined ds e).subject? = e.subject? := by
  have hfold : ∀ xs : List Definition, (xs.foldl Definition.absorb e).subject? = e.subject? := by
    intro xs
    induction xs using List.reverseRecOn with
    | nil => rfl
    | append_singleton xs x ih => rw [List.foldl_append, List.foldl_cons, List.foldl_nil,
        Definition.subject?_absorb, ih]
  rw [combined]
  split
  · exact hfold _
  · rfl

/-! ## One definition more -/

/-- A later definition adds to the first of its subject. -/
theorem combined_concat_of_eq {ds : List Definition} {d e : Definition} {s : Subject}
    (he : e ∈ leaders ds) (hs : e.subject? = some s) (hd : d.subject? = some s) :
    combined (ds ++ [d]) e = (combined ds e).absorb d := by
  obtain ⟨later, hlater⟩ := List.head?_eq_some_iff.1 (head?_defining_of_mem_leaders he hs)
  simp only [combined, hs, defining_concat, if_pos hd, hlater, List.cons_append,
    List.tail_cons, List.foldl_append, List.foldl_cons, List.foldl_nil]

/-- It adds nothing to the definitions of other subjects. -/
theorem combined_concat_of_ne {ds : List Definition} {d e : Definition}
    (h : e.subject? = d.subject? → e.subject? = none) :
    combined (ds ++ [d]) e = combined ds e := by
  cases hs : e.subject? with
  | none => simp only [combined, hs]
  | some s =>
    have hd : d.subject? ≠ some s := by
      intro hd
      rw [hs, hd] at h
      exact absurd (h rfl) (by simp)
    simp only [combined, hs, defining_concat, if_neg hd, List.append_nil]

/-- A definition of a new subject comes last. -/
theorem merged_concat_of_new {ds : List Definition} {d : Definition} (hd : isKnown ds d = false) :
    merged (ds ++ [d]) = merged ds ++ [d] := by
  have hself : combined (ds ++ [d]) d = d := by
    cases hs : d.subject? with
    | none => simp only [combined, hs]
    | some s =>
      simp only [combined, hs, defining_concat, defining_eq_nil_of_new hs hd, if_true,
        List.nil_append, List.tail_cons, List.foldl_nil]
  rw [merged, leaders_concat_eq, hd, List.map_append]
  -- no leader can share the new subject, or it would be known
  refine congrArg₂ _ (List.map_congr_left fun e he => combined_concat_of_ne fun heq => ?_) ?_
  · cases hs : e.subject? with
    | none => rfl
    | some s =>
      have hknown : isKnown (leaders ds) d = true := (isKnown_iff (heq ▸ hs)).2 ⟨e, he, hs⟩
      rw [isKnown_leaders, hd] at hknown
      cases hknown
  · simpa using hself

/-- A definition of a known subject is absorbed in place. -/
theorem merged_concat_of_known {ds : List Definition} {d e : Definition} {s : Subject} {i : Nat}
    (hi : (leaders ds)[i]? = some e) (hs : e.subject? = some s) (hd : d.subject? = some s) :
    merged (ds ++ [d]) = (merged ds).set i ((combined ds e).absorb d) := by
  have he : e ∈ leaders ds := List.mem_of_getElem? hi
  rw [merged, leaders_concat_eq, if_pos (isKnown_of_leader hi hs hd), List.append_nil]
  refine List.ext_getElem? fun j => ?_
  rw [merged, List.getElem?_set, List.getElem?_map]
  by_cases hij : i = j
  · subst hij
    simp only [hi, Option.map_some, if_true, List.length_map,
      (List.getElem?_eq_some_iff.1 hi).1, combined_concat_of_eq he hs hd]
  · rw [if_neg hij, List.getElem?_map]
    cases hj : (leaders ds)[j]? with
    | none => rfl
    | some a =>
      -- only the leader at the place `i` has the subject of the definition
      rw [Option.map_some, Option.map_some, combined_concat_of_ne]
      intro ha
      obtain ⟨hil, rfl⟩ := List.getElem?_eq_some_iff.1 hi
      obtain ⟨hjl, rfl⟩ := List.getElem?_eq_some_iff.1 hj
      rcases Nat.lt_or_gt_of_ne hij with hlt | hlt
      · have := List.pairwise_iff_getElem.1 (pairwise_leaders ds) i j hil hjl hlt
        rw [ha, hd, hs] at this
        exact absurd (this rfl) (by simp)
      · exact List.pairwise_iff_getElem.1 (pairwise_leaders ds) j i hjl hil hlt
          (ha.trans (hd.trans hs.symm))

/-! ## Combined definitions of each kind -/

/-- The definitions of a subject are those of its kind that satisfy a condition. -/
theorem defining_eq {α : Type} {s : Subject} {kind? : Definition → Option α} {p : α → Bool}
    {make : α → Definition}
    (h : ∀ d, Option.guard (·.subject? = some s) d = ((kind? d).filter p).map make)
    (ds : List Definition) : defining s ds = ((ds.filterMap kind?).filter p).map make := by
  rw [defining, ← List.filterMap_eq_filter, List.filter_filterMap, List.map_filterMap]
  exact congrArg (List.filterMap · ds) (funext h)

theorem defining_type (name : String) (ds : List Definition) :
    defining (.type name) ds = (typeDefinitions name ds).map .type := by
  refine defining_eq (fun d => ?_) ds
  cases d with
  | type t =>
    by_cases h : t.name.text = name <;> simp [Option.guard, Option.filter, Definition.subject?, h]
  | schema | directive | extension => simp [Option.guard, Definition.subject?]

theorem defining_schema (ds : List Definition) :
    defining .schema ds = (schemaDefinitions ds).map .schema := by
  have hkind : ∀ d, Option.guard (·.subject? = some .schema) d =
      ((Definition.schema? d).filter fun _ => true).map .schema := by
    intro d
    cases d <;> simp [Option.guard, Option.filter, Definition.subject?]
  rw [defining_eq hkind, List.filter_true, schemaDefinitions]

theorem defining_directive (name : String) (ds : List Definition) :
    defining (.directive name) ds = (directiveDefinitions name ds).map .directive := by
  refine defining_eq (fun d => ?_) ds
  cases d with
  | directive d =>
    by_cases h : d.name.text = name <;> simp [Option.guard, Option.filter, Definition.subject?, h]
  | schema | type | extension => simp [Option.guard, Definition.subject?]

/-- Absorbing leaves the name and the shape. -/
theorem foldl_absorb_type (t : TypeDefinition) (later : List TypeDefinition) :
    (later.foldl TypeDefinition.absorb t).name = t.name ∧
      (later.foldl TypeDefinition.absorb t).content.shape = t.content.shape := by
  induction later generalizing t with
  | nil => exact ⟨rfl, rfl⟩
  | cons u later ih =>
    obtain ⟨hname, hshape⟩ := ih (t.absorb u)
    exact ⟨hname, hshape.trans (TypeDefinition.shape_absorb t u)⟩

/-- An operation starts from the type that it was first bound to. -/
theorem root_foldl_absorb (s : SchemaDefinition) (later : List SchemaDefinition)
    (o : Operation) :
    (later.foldl SchemaDefinition.absorb s).root o = (s :: later).findSome? (·.root o) := by
  induction later generalizing s with
  | nil => cases h : s.root o <;> simp [h]
  | cons u later ih =>
    rw [List.foldl_cons, ih (s.absorb u)]
    simp only [List.findSome?_cons, SchemaDefinition.root_absorb]
    cases s.root o <;> simp

theorem combined_type (ds : List Definition) (t : TypeDefinition) :
    combined ds (.type t) =
      .type ((typeDefinitions t.name.text ds).tail.foldl TypeDefinition.absorb t) := by
  rw [combined]
  simp only [Definition.subject?, defining_type, ← List.map_tail, List.foldl_map]
  exact List.foldl_hom Definition.type fun _ _ => rfl

theorem combined_schema (ds : List Definition) (s : SchemaDefinition) :
    combined ds (.schema s) =
      .schema ((schemaDefinitions ds).tail.foldl SchemaDefinition.absorb s) := by
  rw [combined]
  simp only [Definition.subject?, defining_schema, ← List.map_tail, List.foldl_map]
  exact List.foldl_hom Definition.schema fun _ _ => rfl

theorem combined_directive (ds : List Definition) (d : DirectiveDefinition) :
    combined ds (.directive d) = .directive d := by
  rw [combined]
  simp only [Definition.subject?]
  exact List.foldl_fixed' (fun _ => rfl) _

/-- A directive that is defined again stays as it is. -/
theorem merged_concat_of_known_directive {ds : List Definition} {d : DirectiveDefinition}
    (hd : isKnown ds (.directive d) = true) : merged (ds ++ [.directive d]) = merged ds := by
  rw [← isKnown_leaders] at hd
  obtain ⟨e, he, hs⟩ := (isKnown_iff (d := .directive d) rfl).1 hd
  obtain ⟨i, hi⟩ := List.mem_iff_getElem?.1 he
  have habsorb : (combined ds e).absorb (.directive d) = combined ds e := by
    cases e with
    | directive first =>
      rw [combined_directive]
      rfl
    | schema | type | extension => cases hs
  have hplace : (merged ds)[i]? = some (combined ds e) := by
    rw [merged, List.getElem?_map, hi, Option.map_some]
  rw [merged_concat_of_known hi hs rfl, habsorb]
  -- absorbed in place means written over with itself
  obtain ⟨hlt, heq⟩ := List.getElem?_eq_some_iff.1 hplace
  rw [← heq, List.set_getElem_self]

/-- The leader among the definitions of the schema heads them. -/
theorem schemaDefinitions_eq_cons {ds : List Definition} {first : SchemaDefinition}
    (h : .schema first ∈ leaders ds) :
    schemaDefinitions ds = first :: (schemaDefinitions ds).tail := by
  have hhead := head?_defining_of_mem_leaders h rfl
  rw [defining_schema, List.head?_map] at hhead
  obtain ⟨a, ha, haf⟩ := Option.map_eq_some_iff.1 hhead
  cases haf
  exact (List.cons_head?_tail ha).symm

/-- The leader among the definitions of a type heads them. -/
theorem typeDefinitions_eq_cons {ds : List Definition} {first : TypeDefinition} {name : String}
    (h : .type first ∈ leaders ds) (hname : first.name.text = name) :
    typeDefinitions name ds = first :: (typeDefinitions name ds).tail := by
  subst hname
  have hhead := head?_defining_of_mem_leaders h rfl
  rw [defining_type, List.head?_map] at hhead
  obtain ⟨a, ha, haf⟩ := Option.map_eq_some_iff.1 hhead
  cases haf
  exact (List.cons_head?_tail ha).symm

/-! ## Places -/

/-- The place of the definition of a subject. -/
def place (s : Subject) (ds : List Definition) : Option Nat :=
  (leaders ds).findIdx? (·.subject? = some s)

/-- A definition of a known subject leaves all places. -/
theorem place_concat_of_known {ds : List Definition} {d : Definition}
    (hd : isKnown ds d = true) (s : Subject) : place s (ds ++ [d]) = place s ds := by
  rw [place, place, leaders_concat_eq, if_pos hd, List.append_nil]

/-- A subject has no place as long as nothing defines it. -/
theorem place_eq_none_iff {ds : List Definition} {d : Definition} {s : Subject}
    (hd : d.subject? = some s) : place s ds = none ↔ isKnown ds d = false := by
  rw [← isKnown_leaders, ← Bool.not_eq_true, isKnown_iff hd, place, List.findIdx?_eq_none_iff]
  simp

/-- A new subject has its place behind all others. -/
theorem place_concat_of_new {ds : List Definition} {d : Definition}
    (hd : isKnown ds d = false) (s : Subject) :
    place s (ds ++ [d]) =
      if d.subject? = some s then some (merged ds).length else place s ds := by
  have happend : place s (ds ++ [d]) =
      (place s ds <|> if d.subject? = some s then some (merged ds).length else none) := by
    rw [place, leaders_concat_eq, hd, if_neg (by simp), List.findIdx?_append, ← place, merged,
      List.length_map]
    by_cases hs : d.subject? = some s <;> simp [hs]
  rw [happend]
  split
  · next hs =>
    rw [(place_eq_none_iff hs).2 hd]
    rfl
  · cases place s ds <;> rfl

/-- At the place of a subject is its first definition. -/
theorem exists_leader_of_place {ds : List Definition} {s : Subject} {i : Nat}
    (h : place s ds = some i) : ∃ e, (leaders ds)[i]? = some e ∧ e.subject? = some s := by
  obtain ⟨hi, he, -⟩ := List.findIdx?_eq_some_iff_getElem.1 h
  exact ⟨_, List.getElem?_eq_getElem hi, of_decide_eq_true he⟩

/-! ## What is known of the definitions merged so far -/

/-- The definitions are those that a sequence comes to, and its places lead to them. -/
structure Merger.Holds (m : Merger) (ds : List Definition) : Prop where
  definitions : m.definitions = merged ds
  /-- The names are those of the directives that were defined. -/
  directives : ∀ d : DirectiveDefinition,
    m.directiveNames.contains d.name.text = isKnown ds (.directive d)
  schema : m.schemaPlace = place .schema ds
  types : ∀ name, m.typePlaces.get? name = place (.type name) ds

namespace Merger

variable {m m' : Merger} {ds : List Definition}

theorem holds_empty : empty.Holds [] where
  definitions := rfl
  directives _ := rfl
  schema := rfl
  types _ := rfl

/-- The definition of the schema is found where it is. -/
theorem Holds.schemaAt?_cases (h : m.Holds ds) :
    (m.schemaAt? = none ∧ place .schema ds = none) ∨
      ∃ i first, m.schemaAt? =
          some (i, (schemaDefinitions ds).tail.foldl SchemaDefinition.absorb first) ∧
        (leaders ds)[i]? = some (.schema first) := by
  rw [schemaAt?, h.schema, h.definitions]
  cases hp : place .schema ds with
  | none => exact Or.inl ⟨rfl, rfl⟩
  | some i =>
    obtain ⟨e, he, hs⟩ := exists_leader_of_place hp
    cases e with
    | schema first =>
      refine Or.inr ⟨i, first, ?_, he⟩
      rw [Option.bind_some, merged, List.getElem?_map, he, Option.map_some, combined_schema]
    | type t => cases hs
    | directive d => cases hs
    | extension e => cases hs

/-- The definition of a type is found where it is. -/
theorem Holds.typeAt?_cases (h : m.Holds ds) (name : String) :
    (m.typeAt? name = none ∧ place (.type name) ds = none) ∨
      ∃ i first, m.typeAt? name =
          some (i, (typeDefinitions name ds).tail.foldl TypeDefinition.absorb first) ∧
        (leaders ds)[i]? = some (.type first) ∧ first.name.text = name := by
  rw [typeAt?, h.types, h.definitions]
  cases hp : place (.type name) ds with
  | none => exact Or.inl ⟨rfl, rfl⟩
  | some i =>
    obtain ⟨e, he, hs⟩ := exists_leader_of_place hp
    cases e with
    | type first =>
      simp only [Definition.subject?, Option.some.injEq, Subject.type.injEq] at hs
      refine Or.inr ⟨i, first, ?_, he, hs⟩
      rw [Option.bind_some, merged, List.getElem?_map, he, Option.map_some, combined_type, hs]
    | schema s => cases hs
    | directive d => cases hs
    | extension e => cases hs

/-- A definition of a new subject comes last, and its place is remembered. -/
theorem Holds.concat_of_new (h : m.Holds ds) {d : Definition} (hd : isKnown ds d = false)
    (hm : m'.definitions = m.definitions ++ [d])
    (hdirectives : ∀ e : DirectiveDefinition, m'.directiveNames.contains e.name.text =
      (m.directiveNames.contains e.name.text || isKnown [d] (.directive e)))
    (hschema : m'.schemaPlace =
      if d.subject? = some .schema then some m.definitions.length else m.schemaPlace)
    (htypes : ∀ name, m'.typePlaces.get? name =
      if d.subject? = some (.type name) then some m.definitions.length
      else m.typePlaces.get? name) :
    m'.Holds (ds ++ [d]) := by
  refine ⟨?_, ?_, ?_, ?_⟩
  · rw [hm, h.definitions, merged_concat_of_new hd]
  · intro e
    rw [hdirectives, h.directives]
    simp [isKnown]
  · rw [hschema, h.schema, h.definitions, place_concat_of_new hd]
  · intro name
    rw [htypes, h.types, h.definitions, place_concat_of_new hd]

/-- A definition of a known subject is absorbed by the first one. -/
theorem Holds.replace (h : m.Holds ds) {d first : Definition} {s : Subject} {i : Nat}
    (hi : (leaders ds)[i]? = some first) (hs : first.subject? = some s)
    (hd : d.subject? = some s) :
    (m.replace i ((combined ds first).absorb d)).Holds (ds ++ [d]) := by
  have hknown := isKnown_of_leader hi hs hd
  refine ⟨?_, ?_, ?_, ?_⟩
  · rw [merged_concat_of_known hi hs hd, Merger.replace, h.definitions]
  · intro e
    rw [Merger.replace, h.directives, isKnown_concat_of_known hknown]
  · rw [Merger.replace, h.schema, place_concat_of_known hknown]
  · intro name
    rw [Merger.replace, h.types, place_concat_of_known hknown]

/-- **One step.**  The schema is defined again, or for the first time. -/
theorem Holds.addSchema (h : m.Holds ds) (s : SchemaDefinition) :
    match conflict? ds (.schema s) with
    | some c => m.addSchema s = .error c
    | none => ∃ m', m.addSchema s = .ok m' ∧ m'.Holds (ds ++ [.schema s]) := by
  rcases h.schemaAt?_cases with ⟨hat, hplace⟩ | ⟨i, first, hat, hi⟩
  · have hnew : isKnown ds (.schema s) = false := (place_eq_none_iff rfl).1 hplace
    have hnone : schemaDefinitions ds = [] :=
      List.map_eq_nil_iff.1 ((defining_schema ds).symm.trans (defining_eq_nil_of_new rfl hnew))
    have hclear : conflict? ds (.schema s) = none := by
      simp [conflict?, boundRoot, hnone, rootConflict?]
    rw [hclear, Merger.addSchema, hat]
    refine ⟨_, rfl, h.concat_of_new hnew rfl ?_ rfl ?_⟩
    · intro e
      simp [Merger.push, isKnown, Definition.subject?]
    · intro name
      simp [Merger.push, Definition.subject?]
  · have hall := schemaDefinitions_eq_cons (List.mem_of_getElem? hi)
    -- what is bound at the place is what the definitions so far bind first
    have hroot : ∀ o, ((schemaDefinitions ds).tail.foldl SchemaDefinition.absorb first).root o =
        boundRoot o ds := by
      intro o
      rw [root_foldl_absorb, ← hall, boundRoot]
    rw [Merger.addSchema, hat]
    simp only [SchemaDefinition.merge_eq, hroot]
    rw [conflict?]
    cases hc : [Operation.query, .mutation, .subscription].findSome? fun o =>
        rootConflict? o (boundRoot o ds) (s.root o) with
    | some c => rfl
    | none =>
      refine ⟨_, rfl, ?_⟩
      have := h.replace (d := .schema s) hi rfl rfl
      rwa [combined_schema] at this

/-- **One step.**  A type is defined again, or for the first time. -/
theorem Holds.addType (h : m.Holds ds) (t : TypeDefinition) :
    match conflict? ds (.type t) with
    | some c => m.addType t = .error c
    | none => ∃ m', m.addType t = .ok m' ∧ m'.Holds (ds ++ [.type t]) := by
  rcases h.typeAt?_cases t.name.text with ⟨hat, hplace⟩ | ⟨i, first, hat, hi, hname⟩
  · have hnew : isKnown ds (.type t) = false := (place_eq_none_iff rfl).1 hplace
    have hnone : typeDefinitions t.name.text ds = [] :=
      List.map_eq_nil_iff.1 ((defining_type _ ds).symm.trans (defining_eq_nil_of_new rfl hnew))
    have hclear : conflict? ds (.type t) = none := by
      simp [conflict?, hnone]
    rw [hclear, Merger.addType, hat]
    refine ⟨_, rfl, h.concat_of_new hnew rfl ?_ ?_ ?_⟩
    · intro e
      simp [Merger.push, isKnown, Definition.subject?]
    · simp [Merger.push, Definition.subject?]
    · intro name
      rw [Table.get?_put]
      simp [Definition.subject?, eq_comm]
  · have hall := typeDefinitions_eq_cons (List.mem_of_getElem? hi) hname
    -- absorbing keeps the shape, so comparing with the place is comparing with the first
    obtain ⟨hn, hshape⟩ := foldl_absorb_type first (typeDefinitions t.name.text ds).tail
    rw [Merger.addType, hat]
    simp only [TypeDefinition.merge_eq, hshape, hn, hname]
    rw [conflict?, hall, List.head?_cons, Option.bind_some]
    by_cases hs : first.content.shape = t.content.shape
    · simp only [if_pos hs]
      refine ⟨_, rfl, ?_⟩
      have := h.replace (d := .type t) (s := .type t.name.text) hi
        (by rw [Definition.subject?, hname]) rfl
      rwa [combined_type, hname] at this
    · simp only [if_neg hs]
      rfl

/-- **One step.**  A directive is defined for the first time, or nothing changes. -/
theorem Holds.addDirective (h : m.Holds ds) (d : DirectiveDefinition) :
    (m.addDirective d).Holds (ds ++ [.directive d]) := by
  rw [Merger.addDirective, h.directives]
  cases hd : isKnown ds (.directive d) with
  | true =>
    refine ⟨?_, ?_, ?_, ?_⟩
    · rw [if_pos rfl, h.definitions, merged_concat_of_known_directive hd]
    · intro e
      rw [if_pos rfl, h.directives, isKnown_concat_of_known hd]
    · rw [if_pos rfl, h.schema, place_concat_of_known hd]
    · intro name
      rw [if_pos rfl, h.types, place_concat_of_known hd]
  | false =>
    rw [if_neg (by simp)]
    refine h.concat_of_new hd rfl ?_ rfl ?_
    · intro e
      simp [isKnown, Definition.subject?, eq_comm]
    · intro name
      simp [Merger.push, Definition.subject?]

/-- **One step.**  An addition comes last. -/
theorem Holds.addExtension (h : m.Holds ds) (e : TypeExtension) :
    (m.push (.extension e)).Holds (ds ++ [.extension e]) := by
  refine h.concat_of_new (isKnown_of_subject?_eq_none rfl) rfl ?_ rfl ?_
  · intro d
    simp [Merger.push, isKnown, Definition.subject?]
  · intro name
    simp [Merger.push, Definition.subject?]

/-- **One step.**  A definition is refused for a conflict with those before it, and else
the definitions come to what the longer sequence comes to. -/
theorem heeds_conflict : Heeds add conflict? Holds := by
  have hstep : ∀ {m : Merger} {ds d}, m.Holds ds →
      match conflict? ds d with
      | some c => m.add d = .error c
      | none => ∃ m', m.add d = .ok m' ∧ m'.Holds (ds ++ [d]) := by
    intro m ds d h
    cases d with
    | schema s => exact h.addSchema s
    | type t => exact h.addType t
    | directive d => exact ⟨_, rfl, h.addDirective d⟩
    | extension e => exact ⟨_, rfl, h.addExtension e⟩
  refine ⟨fun {m ds d c} h hc => ?_, fun {m ds d} h hd => ?_⟩
  · have := hstep (d := d) h
    rwa [hc] at this
  · have := hstep (d := d) h
    rwa [hd] at this

end Merger

/-! ## A sequence of definitions -/

/-- **Merging definitions.**  A sequence is merged exactly if it is harmonious. -/
theorem mergeDefinitions_eq_ok_iff (ds ms : List Definition) :
    mergeDefinitions ds = .ok ms ↔ Harmonious ds ∧ ms = merged ds := by
  rw [mergeDefinitions, Merger.addAll]
  constructor
  · intro h
    cases hrun : ds.foldlM Merger.add .empty with
    | error c => simp [hrun, Except.map] at h
    | ok m =>
      obtain ⟨hclear, hm⟩ := Merger.heeds_conflict.of_run Merger.holds_empty hrun
      simp only [hrun, Except.map, Except.ok.injEq] at h
      exact ⟨hclear, h.symm.trans hm.definitions⟩
  · rintro ⟨hclear, rfl⟩
    obtain ⟨m, hrun⟩ := (Merger.heeds_conflict.exists_run_iff Merger.holds_empty).2 hclear
    have hm := (Merger.heeds_conflict.of_run Merger.holds_empty hrun).2
    rw [hrun]
    exact congrArg Except.ok hm.definitions

/-- What is reported is the first conflict. -/
theorem mergeDefinitions_eq_error_iff (ds : List Definition) (c : Conflict) :
    mergeDefinitions ds = .error c ↔
      ∃ before d after, ds = before ++ d :: after ∧ Harmonious before ∧
        conflict? before d = some c := by
  have herror : mergeDefinitions ds = .error c ↔ ds.foldlM Merger.add .empty = .error c := by
    rw [mergeDefinitions, Merger.addAll]
    cases ds.foldlM Merger.add .empty <;> simp [Except.map]
  rw [herror, Merger.heeds_conflict.run_eq_error_iff Merger.holds_empty]
  exact firstObjection?_eq_some_iff

end SchemaCatalog.Fragment

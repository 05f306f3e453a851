/-
# Merging in groups

What a sequence of definitions comes to can be computed in stages: some of the definitions
may be merged beforehand, and what they come to put in their place.  This holds since one
definition absorbs others in any grouping, as long as they are of one kind, and since what
has been merged says of types and operations what was said before.
-/
import SchemaCatalog.Proofs.FragmentMentions

namespace SchemaCatalog.Fragment

/-! ## Unions in any grouping -/

section

variable {α β : Type} [DecidableEq β] (key : α → β)

theorem unionBy_cons (xs : List α) (y : α) (ys : List α) :
    unionBy key xs (y :: ys) =
      unionBy key (if key y ∈ xs.map key then xs else xs ++ [y]) ys := by
  have hany : (xs.any fun x => key x = key y) = true ↔ key y ∈ xs.map key := by simp
  show unionBy key (if (xs.any fun x => key x = key y) = true then xs else xs ++ [y]) ys = _
  simp only [hany]

/-- Items that a list would not add can be left out beforehand. -/
theorem unionBy_firstNew {seen : List β} {xs : List α} (h : seen ⊆ xs.map key) (ys : List α) :
    unionBy key xs (firstNew key seen ys) = unionBy key xs ys := by
  induction ys generalizing seen xs with
  | nil => rfl
  | cons y ys ih =>
    rw [firstNew, unionBy_cons key xs y ys]
    by_cases hy : key y ∈ seen
    · rw [if_pos hy, if_pos (h hy), ih h]
    · rw [if_neg hy, unionBy_cons]
      refine ih (List.append_subset.2 ⟨?_, ?_⟩)
      · split
        · exact h
        · rw [List.map_append]
          exact List.subset_append_of_subset_left _ h
      · split
        · next hkey => simpa using hkey
        · simp

/-- It does not matter how unions are grouped. -/
theorem unionBy_assoc (xs ys zs : List α) :
    unionBy key (unionBy key xs ys) zs = unionBy key xs (unionBy key ys zs) := by
  have hseen : ys.map key ⊆ (unionBy key xs ys).map key := fun k hk =>
    (mem_keys_unionBy key xs ys k).2 (Or.inr hk)
  rw [unionBy_eq key ys zs, unionBy_append, unionBy_firstNew key hseen]

end

/-! ## Absorbing in any grouping -/

/-- The shape of the type that a definition defines, if it defines one. -/
def Definition.shape? : Definition → Option Shape
  | .type t => some t.content.shape
  | .schema _ | .directive _ | .extension _ => none

/-- Two definitions are of one kind if they define the same thing, a type in the same
shape. -/
def Definition.IsLike (d e : Definition) : Prop :=
  d.subject? = e.subject? ∧ d.shape? = e.shape?

theorem Definition.IsLike.trans {d e f : Definition} (h : d.IsLike e) (h' : e.IsLike f) :
    d.IsLike f :=
  ⟨h.1.trans h'.1, h.2.trans h'.2⟩

/-- What absorbs another definition stays of its kind. -/
theorem Definition.absorb_isLike (d later : Definition) : (d.absorb later).IsLike d := by
  refine ⟨subject?_absorb d later, ?_⟩
  cases d <;> cases later <;> simp [absorb, shape?]

theorem Content.absorb_assoc {c d e : Content} (hcd : c.shape = d.shape) (hde : d.shape = e.shape) :
    (c.absorb d).absorb e = c.absorb (d.absorb e) := by
  cases c <;> cases d <;> cases hcd <;> cases e <;> cases hde <;>
    simp [absorb, merge?, mergeNames, unionBy_assoc]

theorem TypeDefinition.absorb_assoc {t u v : TypeDefinition}
    (htu : t.content.shape = u.content.shape) (huv : u.content.shape = v.content.shape) :
    (t.absorb u).absorb v = t.absorb (u.absorb v) := by
  simp only [absorb, mergeDirectives, unionBy_assoc, Content.absorb_assoc htu huv,
    Option.orElse_eq_orElse, Option.orElse_eq_or, Option.or_assoc]

theorem SchemaDefinition.absorb_assoc (s t u : SchemaDefinition) :
    (s.absorb t).absorb u = s.absorb (t.absorb u) := by
  simp only [absorb, mergeDirectives, unionBy_assoc, Option.orElse_eq_orElse,
    Option.orElse_eq_or, Option.or_assoc]

/-- It does not matter how definitions of one kind are grouped that absorb each other. -/
theorem Definition.absorb_assoc {d e f : Definition} (hde : d.IsLike e) (hef : e.IsLike f) :
    (d.absorb e).absorb f = d.absorb (e.absorb f) := by
  obtain ⟨hsubject, hshape⟩ := hde
  obtain ⟨hsubject', hshape'⟩ := hef
  cases d with
  | type t =>
    cases e with
    | type u =>
      cases f with
      | type v =>
        exact congrArg Definition.type
          (TypeDefinition.absorb_assoc (Option.some.inj hshape) (Option.some.inj hshape'))
      | schema | directive | extension => cases hshape'
    | schema | directive | extension => cases hshape
  | schema s =>
    cases e with
    | schema s' =>
      cases f with
      | schema s'' => exact congrArg Definition.schema (SchemaDefinition.absorb_assoc s s' s'')
      | type | directive | extension => cases hsubject'
    | type | directive | extension => cases hsubject
  | directive d => rfl
  | extension e => rfl

/-- What a definition has absorbed it can have absorbed beforehand. -/
theorem Definition.absorb_foldl {d e : Definition} {later : List Definition} (hde : d.IsLike e)
    (hlater : ∀ f ∈ later, e.IsLike f) :
    d.absorb (later.foldl absorb e) = later.foldl absorb (d.absorb e) := by
  induction later generalizing e with
  | nil => rfl
  | cons f later ih =>
    obtain ⟨hef, hrest⟩ := List.forall_mem_cons.1 hlater
    have hsame := e.absorb_isLike f
    have hback : e.IsLike (e.absorb f) := ⟨hsame.1.symm, hsame.2.symm⟩
    rw [List.foldl_cons, List.foldl_cons, ih (hde.trans hback) fun g hg => hsame.trans (hrest g hg),
      Definition.absorb_assoc hde hef]

/-! ## Sequences in a row -/

theorem defining_append (s : Subject) (xs ys : List Definition) :
    defining s (xs ++ ys) = defining s xs ++ defining s ys :=
  List.filter_append xs ys

theorem isKnown_append (xs ys : List Definition) (d : Definition) :
    isKnown (xs ++ ys) d = (isKnown xs d || isKnown ys d) :=
  List.any_append

/-- What is known of a definition depends on what it defines. -/
theorem isKnown_congr {ds : List Definition} {d e : Definition} (h : d.subject? = e.subject?) :
    isKnown ds d = isKnown ds e := by
  rw [isKnown, isKnown, h]

/-- Those lead a second sequence that define what the first does not. -/
theorem leaders_append (xs ys : List Definition) :
    leaders (xs ++ ys) = leaders xs ++ (leaders ys).filter fun d => !isKnown xs d := by
  induction ys using List.reverseRecOn with
  | nil => simp [leaders]
  | append_singleton ys d ih =>
    rw [← List.append_assoc, leaders_concat_eq, ih, leaders_concat_eq, List.filter_append,
      isKnown_append, List.append_assoc]
    cases hx : isKnown xs d <;> cases isKnown ys d <;> simp [hx]

/-- Definitions of which no two define the same thing all lead. -/
theorem leaders_of_pairwise {ds : List Definition}
    (h : ds.Pairwise fun a b => a.subject? = b.subject? → a.subject? = none) :
    leaders ds = ds := by
  induction ds using List.reverseRecOn with
  | nil => rfl
  | append_singleton ds d ih =>
    obtain ⟨hds, -, hd⟩ := List.pairwise_append.1 h
    have hnew : isKnown ds d = false := by
      rw [Bool.eq_false_iff]
      intro hknown
      cases hs : d.subject? with
      | none => rw [isKnown_of_subject?_eq_none hs] at hknown; cases hknown
      | some s =>
        obtain ⟨e, he, hes⟩ := (isKnown_iff hs).1 hknown
        have := hd e he d (List.mem_singleton_self d) (hes.trans hs.symm)
        rw [hes] at this
        cases this
    rw [leaders_concat_eq, ih hds, hnew]
    rfl

@[simp] theorem leaders_merged (ds : List Definition) : leaders (merged ds) = merged ds :=
  leaders_of_pairwise (pairwise_merged ds)

/-- Merging keeps what is known. -/
@[simp] theorem isKnown_merged (ds : List Definition) (d : Definition) :
    isKnown (merged ds) d = isKnown ds d := by
  rw [← isKnown_leaders ds, merged, isKnown, isKnown, List.any_map]
  simp only [Function.comp_def, subject?_combined]

theorem combined_eq {ds : List Definition} {e : Definition} {s : Subject}
    (hs : e.subject? = some s) :
    combined ds e = (defining s ds).tail.foldl Definition.absorb e := by
  rw [combined, hs]

theorem combined_of_none {ds : List Definition} {e : Definition} (hs : e.subject? = none) :
    combined ds e = e := by
  rw [combined, hs]

/-- Whatever a definition is combined with, it stays of its kind. -/
theorem combined_isLike (ds : List Definition) (e : Definition) : (combined ds e).IsLike e := by
  have hfold : ∀ (later : List Definition) (e : Definition),
      (later.foldl Definition.absorb e).IsLike e := by
    intro later
    induction later with
    | nil => exact fun e => ⟨rfl, rfl⟩
    | cons f later ih => exact fun e => (ih (e.absorb f)).trans (e.absorb_isLike f)
  rw [combined]
  split
  · exact hfold _ e
  · exact ⟨rfl, rfl⟩

/-- A leader of a first sequence absorbs what a second one adds, after all of the first. -/
theorem combined_append {xs : List Definition} (ys : List Definition) {e : Definition}
    {s : Subject} (he : e ∈ leaders xs) (hs : e.subject? = some s) :
    combined (xs ++ ys) e = (defining s ys).foldl Definition.absorb (combined xs e) := by
  obtain ⟨later, hlater⟩ := List.head?_eq_some_iff.1 (head?_defining_of_mem_leaders he hs)
  rw [combined_eq hs, combined_eq hs, defining_append, hlater, List.cons_append, List.tail_cons,
    List.tail_cons, List.foldl_append]

/-- What a first sequence does not define is what the second makes of it. -/
theorem combined_append_of_new {xs : List Definition} (ys : List Definition) {e : Definition}
    (he : isKnown xs e = false) : combined (xs ++ ys) e = combined ys e := by
  cases hs : e.subject? with
  | none => rw [combined_of_none hs, combined_of_none hs]
  | some s =>
    rw [combined_eq hs, combined_eq hs, defining_append, defining_eq_nil_of_new hs he,
      List.nil_append]

/-- Of each subject one definition is left when all is merged. -/
theorem defining_merged (s : Subject) (ds : List Definition) :
    defining s (merged ds) = (defining s ds).head?.toList.map (combined ds) := by
  rw [← defining_leaders, merged, defining, defining, List.filter_map]
  exact congrArg (List.map _) (List.filter_congr fun e _ => by simp)

/-- What is merged has nothing more to absorb. -/
theorem combined_merged (ds : List Definition) (d : Definition) :
    combined (merged ds) d = d := by
  cases hs : d.subject? with
  | none => exact combined_of_none hs
  | some s =>
    rw [combined_eq hs, defining_merged]
    cases (defining s ds).head? <;> rfl

/-! ## What has been merged in the place of definitions -/

/-- What two sequences are merged to: the leaders of the first absorb what the second adds, and
behind them stands what only the second defines. -/
theorem merged_append (xs ys : List Definition) :
    merged (xs ++ ys) = (leaders xs).map (combined (xs ++ ys)) ++
      ((leaders ys).filter fun d => !isKnown xs d).map (combined ys) := by
  rw [merged, leaders_append, List.map_append]
  refine congrArg (List.map (combined (xs ++ ys)) (leaders xs) ++ ·) ?_
  refine List.map_congr_left fun e he => combined_append_of_new ys ?_
  simpa using (List.mem_filter.1 he).2

theorem combined_merged_append {xs : List Definition} (ys : List Definition) {e : Definition}
    (he : e ∈ leaders xs) : combined (merged xs ++ ys) (combined xs e) = combined (xs ++ ys) e := by
  cases hs : e.subject? with
  | none => rw [combined_of_none hs, combined_of_none hs, combined_of_none hs]
  | some s =>
    have hs' : (combined xs e).subject? = some s := (subject?_combined xs e).trans hs
    have he' : combined xs e ∈ leaders (merged xs) := by
      rw [leaders_merged]
      exact List.mem_map_of_mem he
    rw [combined_append ys he hs, combined_append ys he' hs', combined_merged]

/-- A first part of a sequence may be merged beforehand. -/
theorem merged_merged_append (xs ys : List Definition) :
    merged (merged xs ++ ys) = merged (xs ++ ys) := by
  rw [merged_append, merged_append, leaders_merged]
  simp only [isKnown_merged]
  refine congrArg (· ++ _) ?_
  rw [merged, List.map_map]
  exact List.map_congr_left fun e he => combined_merged_append ys he

/-- Definitions of the same thing that do not contradict each other are of one kind. -/
theorem IsConsistent.isLike {ds : List Definition} (h : IsConsistent ds) {d e : Definition}
    {s : Subject} (hd : d ∈ ds) (he : e ∈ ds) (hds : d.subject? = some s)
    (hes : e.subject? = some s) : d.IsLike e := by
  refine ⟨hds.trans hes.symm, ?_⟩
  cases d with
  | type t =>
    cases e with
    | type u =>
      have hname : t.name.text = u.name.text := by
        rw [← hes] at hds
        simpa [Definition.subject?] using hds
      exact congrArg some (h.shapes t u hd he hname)
    | schema | directive | extension => cases hds; cases hes
  | schema s =>
    cases hds
    cases e with
    | schema | directive | extension => rfl
    | type => cases hes
  | directive d =>
    cases hds
    cases e with
    | schema | directive | extension => rfl
    | type => cases hes
  | extension e => cases hds

/-- A leader absorbs at once what the later definitions come to by themselves. -/
theorem combined_append_merged {xs ys : List Definition} (h : IsConsistent (xs ++ ys))
    {e : Definition} (he : e ∈ leaders xs) :
    combined (xs ++ merged ys) e = combined (xs ++ ys) e := by
  cases hs : e.subject? with
  | none => rw [combined_of_none hs, combined_of_none hs]
  | some s =>
    rw [combined_append _ he hs, combined_append _ he hs, defining_merged]
    cases hdefining : defining s ys with
    | nil => rfl
    | cons first later =>
      have hmem : ∀ f ∈ first :: later, f ∈ xs ++ ys ∧ f.subject? = some s := by
        intro f hf
        obtain ⟨hys, hfs⟩ := List.mem_filter.1 (hdefining ▸ hf : f ∈ defining s ys)
        exact ⟨List.mem_append_right xs hys, of_decide_eq_true hfs⟩
      obtain ⟨hfirst, hfs⟩ := hmem first List.mem_cons_self
      have hlike : (combined xs e).IsLike first :=
        (combined_isLike xs e).trans
          (h.isLike (List.mem_append_left ys (subset_leaders xs he)) hfirst hs hfs)
      have htail : (defining s ys).tail = later := by rw [hdefining, List.tail_cons]
      rw [List.head?_cons, Option.toList_some, List.map_singleton, List.foldl_cons,
        List.foldl_cons, List.foldl_nil, combined_eq hfs, htail]
      refine Definition.absorb_foldl hlike fun f hf => ?_
      obtain ⟨hfmem, hff⟩ := hmem f (List.mem_cons_of_mem first hf)
      exact h.isLike hfirst hfmem hfs hff

/-- What is new to a sequence is new before and after it is merged. -/
theorem filter_merged (xs ys : List Definition) :
    ((merged ys).filter fun d => !isKnown xs d) =
      ((leaders ys).filter fun d => !isKnown xs d).map (combined ys) := by
  rw [merged, List.filter_map]
  refine congrArg (List.map _) (List.filter_congr fun e _ => ?_)
  rw [Function.comp_apply, isKnown_congr (subject?_combined ys e)]

/-- A last part of a sequence may be merged beforehand, if nothing contradicts it. -/
theorem merged_append_merged {xs ys : List Definition} (h : IsConsistent (xs ++ ys)) :
    merged (xs ++ merged ys) = merged (xs ++ ys) := by
  rw [merged_append, merged_append, leaders_merged, filter_merged, List.map_map]
  refine congrArg₂ (· ++ ·) ?_ ?_
  · exact List.map_congr_left fun e he => combined_append_merged h he
  · exact List.map_congr_left fun e _ => combined_merged ys (combined ys e)

/-- Some definitions in a row may be merged beforehand, wherever they stand. -/
theorem merged_inner {before ds after : List Definition} (h : IsConsistent (before ++ ds)) :
    merged (before ++ merged ds ++ after) = merged (before ++ ds ++ after) := by
  rw [← merged_merged_append (before ++ merged ds), merged_append_merged h, merged_merged_append]

/-! ## What definitions say -/

/-- Some definition gives a shape to a type. -/
def TellsShape (ds : List Definition) (name : String) (shape : Shape) : Prop :=
  ∃ t, .type t ∈ ds ∧ t.name.text = name ∧ t.content.shape = shape

/-- Some definition of the schema starts an operation from a type. -/
def TellsRoot (ds : List Definition) (o : Operation) (name : String) : Prop :=
  ∃ s n, .schema s ∈ ds ∧ s.root o = some n ∧ n.text = name

/-- Two sequences say the same of the shapes of types and of the schema. -/
structure TellAlike (ds es : List Definition) : Prop where
  shapes : ∀ name shape, TellsShape ds name shape ↔ TellsShape es name shape
  roots : ∀ o name, TellsRoot ds o name ↔ TellsRoot es o name

/-- Definitions are consistent if they say one thing of each type and operation. -/
theorem isConsistent_iff (ds : List Definition) :
    IsConsistent ds ↔
      (∀ name a b, TellsShape ds name a → TellsShape ds name b → a = b) ∧
        ∀ o m n, TellsRoot ds o m → TellsRoot ds o n → m = n := by
  constructor
  · intro h
    refine ⟨?_, ?_⟩
    · rintro name _ _ ⟨t, ht, rfl, rfl⟩ ⟨u, hu, hname, rfl⟩
      exact h.shapes t u ht hu hname.symm
    · rintro o _ _ ⟨s, m, hs, hm, rfl⟩ ⟨u, n, hu, hn, rfl⟩
      exact h.roots s u hs hu o m n hm hn
  · rintro ⟨hshapes, hroots⟩
    refine ⟨?_, ?_⟩
    · intro t u ht hu hname
      exact hshapes t.name.text _ _ ⟨t, ht, rfl, rfl⟩ ⟨u, hu, hname.symm, rfl⟩
    · intro s u hs hu o m n hm hn
      exact hroots o _ _ ⟨s, m, hs, hm, rfl⟩ ⟨u, n, hu, hn, rfl⟩

theorem TellAlike.isConsistent_iff {ds es : List Definition} (h : TellAlike ds es) :
    IsConsistent ds ↔ IsConsistent es := by
  simp only [Fragment.isConsistent_iff, h.shapes, h.roots]

theorem TellAlike.refl (ds : List Definition) : TellAlike ds ds :=
  ⟨fun _ _ => Iff.rfl, fun _ _ => Iff.rfl⟩

theorem tellsShape_append (xs ys : List Definition) (name : String) (shape : Shape) :
    TellsShape (xs ++ ys) name shape ↔ TellsShape xs name shape ∨ TellsShape ys name shape := by
  simp only [TellsShape, List.mem_append, or_and_right, exists_or]

theorem tellsRoot_append (xs ys : List Definition) (o : Operation) (name : String) :
    TellsRoot (xs ++ ys) o name ↔ TellsRoot xs o name ∨ TellsRoot ys o name := by
  simp only [TellsRoot, List.mem_append, or_and_right, exists_or]

theorem TellAlike.append {xs xs' ys ys' : List Definition} (hx : TellAlike xs xs')
    (hy : TellAlike ys ys') : TellAlike (xs ++ ys) (xs' ++ ys') where
  shapes name shape := by
    rw [tellsShape_append, tellsShape_append, hx.shapes, hy.shapes]
  roots o name := by
    rw [tellsRoot_append, tellsRoot_append, hx.roots, hy.roots]

/-- Every subject is still defined when all is merged. -/
theorem exists_mem_merged {ds : List Definition} {d : Definition} {s : Subject} (hd : d ∈ ds)
    (hs : d.subject? = some s) : ∃ e ∈ merged ds, e.subject? = some s := by
  refine List.mem_filterMap.1 ?_
  rw [subjects_merged, List.mem_eraseDups]
  exact List.mem_filterMap.2 ⟨d, hd, hs⟩

/-- Merging definitions that do not contradict each other keeps what they say. -/
theorem tellAlike_merged {ds : List Definition} (h : IsConsistent ds) :
    TellAlike (merged ds) ds where
  shapes name shape := by
    have hfirst : ∀ t, .type t ∈ merged ds → ∃ u, .type u ∈ ds ∧ u.name.text = t.name.text ∧
        u.content.shape = t.content.shape := by
      intro t ht
      obtain ⟨first, later, hall, hfold⟩ := type_of_mem_merged ht
      have hmem : first ∈ typeDefinitions t.name.text ds := hall ▸ List.mem_cons_self
      obtain ⟨hfirst, hname⟩ := mem_typeDefinitions_iff.1 hmem
      refine ⟨first, hfirst, hname, ?_⟩
      rw [hfold]
      exact (foldl_absorb_type first later).2.symm
    constructor
    · rintro ⟨t, ht, rfl, rfl⟩
      exact hfirst t ht
    · rintro ⟨u, hu, rfl, rfl⟩
      obtain ⟨e, he, hes⟩ := exists_mem_merged hu rfl
      obtain ⟨t, rfl, hname⟩ := Definition.eq_type_of_subject? hes
      obtain ⟨v, hv, hvname, hvshape⟩ := hfirst t he
      refine ⟨t, he, hname, ?_⟩
      rw [← hvshape]
      exact h.shapes v u hv hu (hvname.trans hname)
  roots o name := by
    constructor
    · rintro ⟨s, n, hs, hn, rfl⟩
      rw [schema_of_mem_merged hs] at hn
      obtain ⟨u, hu, hun⟩ := exists_of_boundRoot hn
      exact ⟨u, n, hu, hun, rfl⟩
    · rintro ⟨u, n, hu, hn, rfl⟩
      obtain ⟨e, he, hes⟩ := exists_mem_merged hu rfl
      cases e with
      | schema s =>
        -- the operation starts from the type that it was first bound to, which has this name
        obtain ⟨m, hm⟩ := exists_boundRoot hu hn
        obtain ⟨v, hv, hvm⟩ := exists_of_boundRoot hm
        exact ⟨s, m, he, (schema_of_mem_merged he o).trans hm, h.roots v u hv hu o m n hvm hn⟩
      | type | directive | extension => cases hes

/-- Some definitions in a row may be merged beforehand: this decides nothing of whether all
can be merged. -/
theorem isConsistent_inner {before ds after : List Definition} (h : IsConsistent ds) :
    IsConsistent (before ++ merged ds ++ after) ↔ IsConsistent (before ++ ds ++ after) :=
  (((TellAlike.refl before).append (tellAlike_merged h)).append (.refl after)).isConsistent_iff

/-! ## Stages and groups -/

theorem mergeDefinitions_eq_ok_iff_isConsistent (ds ms : List Definition) :
    mergeDefinitions ds = .ok ms ↔ IsConsistent ds ∧ ms = merged ds := by
  rw [mergeDefinitions_eq_ok_iff, harmonious_iff]

/-- **One stage.**  Some definitions in a row may be merged beforehand, wherever they
stand. -/
theorem mergeDefinitions_inner (before ds after ms : List Definition) :
    (∃ m, mergeDefinitions ds = .ok m ∧ mergeDefinitions (before ++ m ++ after) = .ok ms) ↔
      mergeDefinitions (before ++ ds ++ after) = .ok ms := by
  simp only [mergeDefinitions_eq_ok_iff_isConsistent]
  constructor
  · rintro ⟨m, ⟨hds, rfl⟩, hall, rfl⟩
    rw [isConsistent_inner hds] at hall
    exact ⟨hall, merged_inner (hall.of_subset (List.subset_append_left _ after))⟩
  · rintro ⟨hall, rfl⟩
    have hbefore : IsConsistent (before ++ ds) :=
      hall.of_subset (List.subset_append_left _ after)
    have hds : IsConsistent ds := hbefore.of_subset (List.subset_append_right before ds)
    exact ⟨merged ds, ⟨hds, rfl⟩, (isConsistent_inner hds).2 hall, (merged_inner hbefore).symm⟩

theorem exists_mapM_cons_iff {α β ε : Type} {f : α → Except ε β} {x : α} {xs : List α}
    {P : List β → Prop} :
    (∃ ys, (x :: xs).mapM f = .ok ys ∧ P ys) ↔
      ∃ y, f x = .ok y ∧ ∃ ys, xs.mapM f = .ok ys ∧ P (y :: ys) := by
  rw [List.mapM_cons]
  cases f x with
  | error e => simp [bind, Except.bind]
  | ok y =>
    cases xs.mapM f with
    | error e => simp [bind, Except.bind]
    | ok ys => simp [bind, Except.bind, pure, Except.pure]

/-- Groups in a row may be merged beforehand, each by itself.  What a group is does not matter,
as long as it comes to what its definitions are merged into. -/
theorem mergeDefinitions_groups {α ε : Type} {group : α → Except ε (List Definition)}
    {definitions : α → List Definition} {IsGood : α → Prop}
    (hgroup : ∀ g m, group g = .ok m ↔ IsGood g ∧ mergeDefinitions (definitions g) = .ok m)
    (before : List Definition) (groups : List α) (ms : List Definition) :
    (∃ mss, groups.mapM group = .ok mss ∧ mergeDefinitions (before ++ mss.flatten) = .ok ms) ↔
      (∀ g ∈ groups, IsGood g) ∧
        mergeDefinitions (before ++ groups.flatMap definitions) = .ok ms := by
  induction groups generalizing before with
  | nil => simp [pure, Except.pure]
  | cons g groups ih =>
    have hinner := mergeDefinitions_inner before (definitions g) (groups.flatMap definitions) ms
    -- what the first group comes to belongs to what stands before the others
    rw [exists_mapM_cons_iff, List.forall_mem_cons, List.flatMap_cons, ← List.append_assoc,
      ← hinner]
    simp only [List.flatten_cons, ← List.append_assoc, ih, hgroup]
    constructor
    · rintro ⟨m, ⟨hg, hm⟩, hgood, hall⟩
      exact ⟨⟨hg, hgood⟩, m, hm, hall⟩
    · rintro ⟨⟨hg, hgood⟩, m, hm, hall⟩
      exact ⟨m, ⟨hg, hm⟩, hgood, hall⟩

/-- Groups may be merged in stages, each with what all before it came to. -/
theorem mergeDefinitions_stages {start m : List Definition}
    (hstart : mergeDefinitions start = .ok m) (groups : List (List Definition))
    (ms : List Definition) :
    groups.foldlM (fun m g => mergeDefinitions (m ++ g)) m = .ok ms ↔
      mergeDefinitions (start ++ groups.flatten) = .ok ms := by
  induction groups generalizing start m with
  | nil =>
    rw [List.flatten_nil, List.append_nil, hstart]
    rfl
  | cons g groups ih =>
    have hg : ∀ m',
        mergeDefinitions (m ++ g) = .ok m' ↔ mergeDefinitions (start ++ g) = .ok m' := by
      intro m'
      have := mergeDefinitions_inner [] start g m'
      rw [hstart] at this
      simpa using this
    rw [List.flatten_cons, ← List.append_assoc, List.foldlM_cons]
    constructor
    · intro h
      cases hm' : mergeDefinitions (m ++ g) with
      | error c =>
        rw [hm'] at h
        cases h
      | ok m' =>
        rw [hm'] at h
        exact (ih ((hg m').1 hm')).1 h
    · intro h
      -- what comes before the others can be merged, since it can with them
      obtain ⟨m', hm', -⟩ := (mergeDefinitions_inner [] (start ++ g) groups.flatten ms).2 h
      rw [(hg m').2 hm']
      exact (ih hm').2 h

/-- Texts are merged as their definitions are, if all of them can be read. -/
theorem mergeTexts_eq_ok_iff_mergeDefinitions (texts : List String) (ms : List Definition) :
    mergeTexts texts = .ok ms ↔
      (∀ text ∈ texts, IsReadable text) ∧ mergeDefinitions (allDefinitions texts) = .ok ms := by
  rw [mergeTexts_eq_ok_iff, mergeDefinitions_eq_ok_iff]

/-- **Merging in groups.**  It does not matter whether definitions are merged at once, in
stages or in groups: what comes first or what comes last may be merged beforehand, each of
several groups may be, and so may the texts of each group.  One way succeeds exactly if the
others do, and all come to the same. -/
theorem mergeDefinitions_regrouped (ms : List Definition) :
    (∀ xs ys : List Definition,
      (∃ m, mergeDefinitions xs = .ok m ∧ mergeDefinitions (m ++ ys) = .ok ms) ↔
        mergeDefinitions (xs ++ ys) = .ok ms) ∧
    (∀ xs ys : List Definition,
      (∃ m, mergeDefinitions ys = .ok m ∧ mergeDefinitions (xs ++ m) = .ok ms) ↔
        mergeDefinitions (xs ++ ys) = .ok ms) ∧
    (∀ groups : List (List Definition),
      (∃ mss, groups.mapM mergeDefinitions = .ok mss ∧ mergeDefinitions mss.flatten = .ok ms) ↔
        mergeDefinitions groups.flatten = .ok ms) ∧
    (∀ groups : List (List Definition),
      groups.foldlM (fun m g => mergeDefinitions (m ++ g)) [] = .ok ms ↔
        mergeDefinitions groups.flatten = .ok ms) ∧
    (∀ groups : List (List String),
      (∃ mss, groups.mapM mergeTexts = .ok mss ∧ mergeDefinitions mss.flatten = .ok ms) ↔
        mergeTexts groups.flatten = .ok ms) := by
  refine ⟨?_, ?_, ?_, ?_, ?_⟩
  · intro xs ys
    exact mergeDefinitions_inner [] xs ys ms
  · intro xs ys
    simpa only [List.append_nil] using mergeDefinitions_inner xs ys [] ms
  · intro groups
    have hgroup : ∀ g m, mergeDefinitions g = .ok m ↔ True ∧ mergeDefinitions (id g) = .ok m :=
      fun g m => (and_iff_right trivial).symm
    simpa using mergeDefinitions_groups hgroup [] groups ms
  · intro groups
    have hstart : mergeDefinitions [] = .ok [] := rfl
    exact mergeDefinitions_stages hstart groups ms
  · intro groups
    have hall : allDefinitions groups.flatten = groups.flatMap allDefinitions := by
      rw [allDefinitions, ← List.flatMap_id, List.flatMap_assoc]
      rfl
    have hgood : (∀ text ∈ groups.flatten, IsReadable text) ↔
        ∀ g ∈ groups, ∀ text ∈ g, IsReadable text := List.forall_mem_flatten
    have hgroup : ∀ g m, (mergeTexts g).toExcept = .ok m ↔
        (∀ text ∈ g, IsReadable text) ∧ mergeDefinitions (allDefinitions g) = .ok m := by
      intro g m
      rw [Attempt.toExcept_eq_ok_iff, mergeTexts_eq_ok_iff_mergeDefinitions]
    rw [mergeTexts_eq_ok_iff_mergeDefinitions, hall, hgood]
    simp only [← Attempt.toExcept_eq_ok_iff (x := groups.mapM mergeTexts), Attempt.toExcept_mapM]
    exact mergeDefinitions_groups hgroup [] groups ms

end SchemaCatalog.Fragment

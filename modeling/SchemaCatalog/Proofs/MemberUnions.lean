/-
# Members of merged types

The definitions of a type are merged one after the other.  What comes out has the members
of the first definition, and behind them those of the later ones that are new by name when
they come.  This does not depend on where one definition ends and the next begins.
-/
import SchemaCatalog.Proofs.Fragments
import SchemaCatalog.Proofs.Harmony

namespace SchemaCatalog.Fragment

/-! ## Items that are new -/

section

variable {α β : Type} [DecidableEq β] (key : α → β)

/-- The items whose keys are neither among some given ones nor those of earlier items. -/
def firstNew (seen : List β) : List α → List α
  | [] => []
  | x :: xs => if key x ∈ seen then firstNew seen xs else x :: firstNew (seen ++ [key x]) xs

/-- A union begins with the earlier items, and the new ones among the later come behind
them. -/
theorem unionBy_eq (xs ys : List α) : unionBy key xs ys = xs ++ firstNew key (xs.map key) ys := by
  induction ys generalizing xs with
  | nil => simp [unionBy, firstNew]
  | cons y ys ih =>
    have hstep : unionBy key xs (y :: ys) =
        unionBy key (if xs.any fun x => key x = key y then xs else xs ++ [y]) ys := rfl
    have hany : (xs.any fun x => key x = key y) = true ↔ key y ∈ xs.map key := by simp
    rw [hstep, ih, firstNew]
    by_cases hy : key y ∈ xs.map key
    · rw [if_pos (hany.2 hy), if_pos hy]
    · rw [if_neg (mt hany.1 hy), if_neg hy, List.map_append, List.append_assoc]
      rfl

/-- What is added in two steps can be added at once. -/
theorem unionBy_append (xs ys zs : List α) :
    unionBy key xs (ys ++ zs) = unionBy key (unionBy key xs ys) zs :=
  List.foldl_append

/-- Among the new items the first one of a key is found, if the key is new at all. -/
theorem find?_firstNew (seen : List β) (xs : List α) (k : β) :
    (firstNew key seen xs).find? (key · = k) =
      if k ∈ seen then none else xs.find? (key · = k) := by
  induction xs generalizing seen with
  | nil => simp [firstNew]
  | cons x xs ih =>
    rw [firstNew, List.find?_cons]
    by_cases hx : key x ∈ seen
    · rw [if_pos hx, ih]
      by_cases hk : key x = k
      · rw [if_pos (hk ▸ hx), if_pos (hk ▸ hx)]
      · simp [hk]
    · rw [if_neg hx, List.find?_cons, ih]
      by_cases hk : key x = k
      · simp [← hk, hx]
      · simp [hk, Ne.symm hk]

/-- No key comes twice among the new items, and none of them was seen. -/
theorem nodup_keys_firstNew (seen : List β) (xs : List α) :
    ((firstNew key seen xs).map key).Nodup ∧ ∀ k ∈ (firstNew key seen xs).map key, k ∉ seen := by
  induction xs generalizing seen with
  | nil => simp [firstNew]
  | cons x xs ih =>
    rw [firstNew]
    split
    · exact ih seen
    · next hx =>
      obtain ⟨hnodup, hnew⟩ := ih (seen ++ [key x])
      rw [List.map_cons]
      refine ⟨List.nodup_cons.2 ⟨fun hmem => hnew _ hmem (by simp), hnodup⟩, ?_⟩
      intro k hk
      rcases List.mem_cons.1 hk with rfl | hk
      · exact hx
      · exact fun hseen => hnew k hk (List.mem_append_left _ hseen)

/-- A list is the union of a first list and later ones. -/
structure IsUnionOf (first : List α) (later : List (List α)) (result : List α) : Prop where
  /-- The first list is kept as it is, and of the others each item that is new when it
  comes. -/
  items : result = first ++ firstNew key (first.map key) later.flatten
  /-- What is found under a key is the first item of that key. -/
  find? : ∀ k, result.find? (key · = k) = (first ++ later.flatten).find? (key · = k)
  keys : ∀ k, k ∈ result.map key ↔ ∃ xs ∈ first :: later, k ∈ xs.map key
  nodup : (first.map key).Nodup → (result.map key).Nodup

/-- An item of some key is found exactly if it is a key of some item. -/
theorem isSome_find?_key (xs : List α) (k : β) :
    (xs.find? (key · = k)).isSome = true ↔ k ∈ xs.map key := by
  simp [List.find?_isSome]

/-- Joining later lists one by one is joining them all. -/
theorem isUnionOf_unionBy (first : List α) (later : List (List α)) :
    IsUnionOf key first later (unionBy key first later.flatten) := by
  have hfind : ∀ k, (unionBy key first later.flatten).find? (key · = k) =
      (first ++ later.flatten).find? (key · = k) := by
    intro k
    rw [unionBy_eq, List.find?_append, List.find?_append, find?_firstNew]
    split
    · next hk =>
      -- a key of the first list is found there
      obtain ⟨x, hx⟩ := Option.isSome_iff_exists.1 ((isSome_find?_key key first k).2 hk)
      rw [hx, Option.some_or, Option.some_or]
    · rfl
  refine ⟨unionBy_eq key first _, hfind, fun k => ?_, fun hfirst => ?_⟩
  · rw [← isSome_find?_key, hfind, isSome_find?_key, ← List.flatten_cons, List.map_flatten,
      ← List.flatMap_def, List.mem_flatMap]
  · obtain ⟨hnodup, hnew⟩ := nodup_keys_firstNew key (first.map key) later.flatten
    rw [unionBy_eq, List.map_append]
    refine List.nodup_append.2 ⟨hfirst, hnodup, ?_⟩
    rintro a ha b hb rfl
    exact hnew a hb ha

end

/-! ## Lists of members -/

namespace Content

/-- The fields of an object or an interface. -/
def fields : Content → List Field
  | object _ fs | interface _ fs => fs
  | enum _ | inputObject _ | scalar | union _ => []

/-- The fields of an input object. -/
def inputFields : Content → List InputValue
  | inputObject fs => fs
  | enum _ | interface _ _ | object _ _ | scalar | union _ => []

/-- The values of an enum. -/
def values : Content → List EnumValue
  | enum vs => vs
  | inputObject _ | interface _ _ | object _ _ | scalar | union _ => []

/-- The members of a union. -/
def unionMembers : Content → List Name
  | union ms => ms
  | enum _ | inputObject _ | interface _ _ | object _ _ | scalar => []

/-- The interfaces that an object or an interface implements. -/
def interfaces : Content → List Name
  | object is _ | interface is _ => is
  | enum _ | inputObject _ | scalar | union _ => []

end Content

/-- A list of members of a definition whose items are joined by a key when definitions of
one shape are merged. -/
def JoinedBy {α : Type} (key : α → String) (part : TypeDefinition → List α) : Prop :=
  ∀ t later : TypeDefinition, t.content.shape = later.content.shape →
    part (t.absorb later) = unionBy key (part t) (part later)

theorem joinedBy_directives : JoinedBy (·.name.text) TypeDefinition.directives :=
  fun _ _ _ => rfl

/-- A list that is joined when contents are merged is joined when definitions are. -/
theorem joinedBy_of_content {α : Type} {key : α → String} {part : Content → List α}
    (h : ∀ c later c', c.merge? later = some c' → part c' = unionBy key (part c) (part later)) :
    JoinedBy key fun t => part t.content := by
  intro t later hshape
  show part (t.content.absorb later.content) = _
  have hmerge := Content.merge?_eq t.content later.content
  rw [if_pos hshape] at hmerge
  exact h _ _ _ hmerge

theorem joinedBy_fields : JoinedBy (·.name.text) fun t => t.content.fields := by
  refine joinedBy_of_content fun c later c' h => ?_
  cases c <;> cases later <;> cases h <;> rfl

theorem joinedBy_inputFields : JoinedBy (·.name.text) fun t => t.content.inputFields := by
  refine joinedBy_of_content fun c later c' h => ?_
  cases c <;> cases later <;> cases h <;> rfl

theorem joinedBy_values : JoinedBy (·.name.text) fun t => t.content.values := by
  refine joinedBy_of_content fun c later c' h => ?_
  cases c <;> cases later <;> cases h <;> rfl

theorem joinedBy_unionMembers : JoinedBy Name.text fun t => t.content.unionMembers := by
  refine joinedBy_of_content fun c later c' h => ?_
  cases c <;> cases later <;> cases h <;> rfl

theorem joinedBy_interfaces : JoinedBy Name.text fun t => t.content.interfaces := by
  refine joinedBy_of_content fun c later c' h => ?_
  cases c <;> cases later <;> cases h <;> rfl

/-- What any number of later definitions add to a list of members. -/
theorem JoinedBy.foldl_absorb {α : Type} {key : α → String} {part : TypeDefinition → List α}
    (h : JoinedBy key part) (first : TypeDefinition) (later : List TypeDefinition)
    (hshape : ∀ t ∈ later, t.content.shape = first.content.shape) :
    IsUnionOf key (part first) (later.map part)
      (part (later.foldl TypeDefinition.absorb first)) := by
  have hfold : part (later.foldl TypeDefinition.absorb first) =
      unionBy key (part first) (later.map part).flatten := by
    induction later generalizing first with
    | nil => rfl
    | cons t later ih =>
      have ht : first.content.shape = t.content.shape := (hshape t (by simp)).symm
      rw [List.foldl_cons, ih (first.absorb t), h first t ht, List.map_cons, List.flatten_cons,
        unionBy_append]
      intro u hu
      rw [TypeDefinition.shape_absorb]
      exact hshape u (List.mem_cons_of_mem t hu)
  rw [hfold]
  exact isUnionOf_unionBy key _ _

/-- The description is the first that is given. -/
theorem description_foldl_absorb (first : TypeDefinition) (later : List TypeDefinition) :
    (later.foldl TypeDefinition.absorb first).description =
      (first :: later).findSome? (·.description) := by
  induction later generalizing first with
  | nil => cases h : first.description <;> simp [h]
  | cons t later ih =>
    rw [List.foldl_cons, ih (first.absorb t)]
    simp only [List.findSome?_cons, TypeDefinition.absorb]
    cases first.description <;> simp

/-! ## The definition of a merged type -/

/-- Of all definitions of a subject the first one leads. -/
theorem defining_leaders (s : Subject) (ds : List Definition) :
    defining s (leaders ds) = (defining s ds).head?.toList := by
  induction ds using List.reverseRecOn with
  | nil => rfl
  | append_singleton ds d ih =>
    have happend : ∀ es es' : List Definition,
        defining s (es ++ es') = defining s es ++ defining s es' := fun es es' =>
      List.filter_append es es'
    rw [leaders_concat_eq, defining_concat, happend, ih, List.head?_append]
    by_cases hd : d.subject? = some s
    · rw [if_pos hd]
      cases hknown : isKnown ds d with
      | false =>
        rw [defining_eq_nil_of_new hd hknown]
        simp [defining, hd]
      | true =>
        -- some definition of the subject came before, and the first of them stays the first
        obtain ⟨e, he, hes⟩ := (isKnown_iff hd).1 hknown
        have hmem : e ∈ defining s ds := List.mem_filter.2 ⟨he, decide_eq_true hes⟩
        obtain ⟨first, rest, hcons⟩ := List.exists_cons_of_ne_nil (List.ne_nil_of_mem hmem)
        rw [hcons]
        simp [defining]
    · rw [if_neg hd]
      split <;> simp [defining, hd]

/-- A merged type has one definition, which is what its definitions come to. -/
theorem typeDefinitions_merged {name : String} {ds : List Definition} {first : TypeDefinition}
    {later : List TypeDefinition} (h : typeDefinitions name ds = first :: later) :
    typeDefinitions name (merged ds) = [later.foldl TypeDefinition.absorb first] := by
  have hdefining : defining (.type name) (merged ds) =
      (defining (.type name) (leaders ds)).map (combined ds) := by
    rw [defining, merged, List.filter_map]
    exact congrArg (List.map _) (List.filter_congr fun e _ => by simp)
  have hname : first.name.text = name :=
    (mem_typeDefinitions_iff.1 (h ▸ List.mem_cons_self)).2
  rw [defining_leaders, defining_type, defining_type, h, List.map_cons, List.head?_cons,
    Option.toList_some, List.map_singleton, combined_type, hname, h] at hdefining
  exact List.map_injective_iff.2 (fun _ _ => Definition.type.inj) hdefining

/-- What the definitions of a type are merged into. -/
structure TypeDefinition.Unites (t first : TypeDefinition) (later : List TypeDefinition) :
    Prop where
  name : t.name = first.name
  shape : t.content.shape = first.content.shape
  /-- Only definitions of one shape are merged. -/
  shapes : ∀ u ∈ later, u.content.shape = first.content.shape
  description : t.description = (first :: later).findSome? (·.description)
  directives : IsUnionOf (·.name.text) first.directives (later.map (·.directives)) t.directives
  interfaces : IsUnionOf Name.text first.content.interfaces
    (later.map (·.content.interfaces)) t.content.interfaces
  fields : IsUnionOf (·.name.text) first.content.fields
    (later.map (·.content.fields)) t.content.fields
  inputFields : IsUnionOf (·.name.text) first.content.inputFields
    (later.map (·.content.inputFields)) t.content.inputFields
  values : IsUnionOf (·.name.text) first.content.values
    (later.map (·.content.values)) t.content.values
  unionMembers : IsUnionOf Name.text first.content.unionMembers
    (later.map (·.content.unionMembers)) t.content.unionMembers

theorem TypeDefinition.unites_foldl_absorb (first : TypeDefinition) (later : List TypeDefinition)
    (hshape : ∀ u ∈ later, u.content.shape = first.content.shape) :
    (later.foldl TypeDefinition.absorb first).Unites first later where
  name := (foldl_absorb_type first later).1
  shape := (foldl_absorb_type first later).2
  shapes := hshape
  description := description_foldl_absorb first later
  directives := joinedBy_directives.foldl_absorb first later hshape
  interfaces := joinedBy_interfaces.foldl_absorb first later hshape
  fields := joinedBy_fields.foldl_absorb first later hshape
  inputFields := joinedBy_inputFields.foldl_absorb first later hshape
  values := joinedBy_values.foldl_absorb first later hshape
  unionMembers := joinedBy_unionMembers.foldl_absorb first later hshape

/-- **Members of merged types.**  Where texts are merged, each type that they define has one
definition.  Its lists have the members of the first definition as they are, and behind them
those members of the later ones, in order, that are new by name when they come; its
description is the first that is given. -/
theorem mergeTexts_unites {texts : List String} {ms : List Definition}
    (h : mergeTexts texts = .ok ms) {name : String} {first : TypeDefinition}
    {later : List TypeDefinition}
    (hdefs : typeDefinitions name (allDefinitions texts) = first :: later) :
    ∃ t, typeDefinitions name ms = [t] ∧ t.Unites first later := by
  obtain ⟨-, hharmony, rfl⟩ := (mergeTexts_eq_ok_iff texts ms).1 h
  have hmem : ∀ u ∈ first :: later, .type u ∈ allDefinitions texts ∧ u.name.text = name :=
    fun u hu => mem_typeDefinitions_iff.1 (hdefs ▸ hu)
  have hshape : ∀ u ∈ later, u.content.shape = first.content.shape := by
    intro u hu
    obtain ⟨hud, hun⟩ := hmem u (List.mem_cons_of_mem first hu)
    obtain ⟨hfd, hfn⟩ := hmem first List.mem_cons_self
    exact ((harmonious_iff _).1 hharmony).shapes u first hud hfd (hun.trans hfn.symm)
  exact ⟨_, typeDefinitions_merged hdefs, TypeDefinition.unites_foldl_absorb first later hshape⟩

/-- An enum that repeats its own values, is defined three times, and is described late. -/
theorem mergeTexts_of_repeated_values :
    let a : Name := ⟨"A", by decide⟩
    let b : Name := ⟨"B", by decide⟩
    let e : Name := ⟨"E", by decide⟩
    let first : TypeDefinition := ⟨none, e, [], .enum [⟨none, a, []⟩, ⟨none, a, []⟩]⟩
    let second : TypeDefinition := ⟨none, e, [], .enum [⟨none, b, []⟩, ⟨none, b, []⟩]⟩
    let third : TypeDefinition := ⟨some "", e, [], .enum [⟨none, a, []⟩]⟩
    let t : TypeDefinition :=
      ⟨some "", e, [], .enum [⟨none, a, []⟩, ⟨none, a, []⟩, ⟨none, b, []⟩]⟩
    let texts := ["enum E {A A} enum E {B B}", "\"\" enum E {A}"]
    mergeTexts texts = .ok [.type t] ∧
      typeDefinitions "E" (allDefinitions texts) = [first, second, third] ∧
      t.Unites first [second, third] := by
  intro a b e first second third t texts
  have h : mergeTexts texts = .ok [.type t] := by rfl
  have hdefs : typeDefinitions "E" (allDefinitions texts) = [first, second, third] := by rfl
  obtain ⟨u, hu, hunites⟩ := mergeTexts_unites h hdefs
  obtain rfl : t = u := List.singleton_injective (hu : [t] = [u])
  exact ⟨h, hdefs, hunites⟩

end SchemaCatalog.Fragment

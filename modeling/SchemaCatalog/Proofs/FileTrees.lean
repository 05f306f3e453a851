/-
# The order of a walk

A walk over a tree of files comes by every place of the tree once, a directory before what it
holds and the entries of a directory in the order of the bytes of their names.  The names that lead
to the places are thus passed in the order of words over an alphabet whose letters are names.
-/
import SchemaCatalog.Files.Tree
import Mathlib.Data.List.Nodup

namespace SchemaCatalog.Files

/-! ## Proper trees -/

/-- The names that an entry of a directory can have. -/
structure IsName (name : FileName) : Prop where
  ne_nil : name ≠ []
  ne_dot : name ≠ [dot]
  ne_dots : name ≠ [dot, dot]
  not_slash : slash ∉ name
  not_nul : 0 ∉ name
  length_le : name.length ≤ maxNameBytes

instance (name : FileName) : Decidable (IsName name) :=
  decidable_of_iff (name ≠ [] ∧ name ≠ [dot] ∧ name ≠ [dot, dot] ∧ slash ∉ name ∧ 0 ∉ name ∧
      name.length ≤ maxNameBytes)
    ⟨fun ⟨h₁, h₂, h₃, h₄, h₅, h₆⟩ => ⟨h₁, h₂, h₃, h₄, h₅, h₆⟩,
      fun ⟨h₁, h₂, h₃, h₄, h₅, h₆⟩ => ⟨h₁, h₂, h₃, h₄, h₅, h₆⟩⟩

/-- The trees that a disk can hold: no two entries of a directory have one name. -/
inductive Node.IsProper : Node → Prop
  | file (bytes : List UInt8) : IsProper (.file bytes)
  | dir {es : List (FileName × Node)} (nodup : (es.map Prod.fst).Nodup)
      (isName : ∀ e ∈ es, IsName e.1) (below : ∀ e ∈ es, IsProper e.2) : IsProper (.dir es)

/-- A proper tree with a working directory in it. -/
structure FileSystem.IsProper (fs : FileSystem) : Prop where
  root : fs.root.IsProper
  directory : ∃ es, fs.root.at? fs.workingDirectory = some (.dir es)

section Lookup

variable {α : Type} {es : List (FileName × α)} {name : FileName} {a : α}

/-- Where no two entries have one name, an entry is what is found under its name. -/
theorem lookup_eq_some_iff (h : (es.map Prod.fst).Nodup) :
    es.lookup name = some a ↔ (name, a) ∈ es := by
  induction es with
  | nil => simp
  | cons e es ih =>
    obtain ⟨other, b⟩ := e
    rw [List.map_cons, List.nodup_cons] at h
    have hnot (hmem : (other, a) ∈ es) : False := h.1 (List.mem_map.2 ⟨_, hmem, rfl⟩)
    rcases eq_or_ne name other with rfl | hne
    · simp only [List.lookup_cons, beq_self_eq_true, Option.some.injEq, List.mem_cons,
        Prod.mk.injEq, true_and, eq_comm (a := b)]
      exact ⟨Or.inl, fun h' => h'.resolve_right hnot⟩
    · simp only [List.lookup_cons, beq_eq_false_iff_ne.2 hne, ih h.2, List.mem_cons,
        Prod.mk.injEq, hne, false_and, false_or]

/-- What is found under a name is an entry of that name. -/
theorem mem_of_lookup (h : es.lookup name = some a) : (name, a) ∈ es := by
  induction es with
  | nil => cases h
  | cons e es ih =>
    obtain ⟨other, b⟩ := e
    rcases eq_or_ne name other with rfl | hne
    · simp only [List.lookup_cons, beq_self_eq_true, Option.some.injEq] at h
      exact List.mem_cons.2 (Or.inl (by rw [h]))
    · simp only [List.lookup_cons, beq_eq_false_iff_ne.2 hne] at h
      exact List.mem_cons_of_mem _ (ih h)

end Lookup

namespace Node

@[simp] theorem at?_nil (n : Node) : n.at? [] = some n := by
  rw [at?]

/-- The first of some names leads to an entry, and the others lead on from there. -/
theorem at?_cons (n : Node) (name : FileName) (names : List FileName) :
    n.at? (name :: names) = (n.entries.lookup name).bind (at? names) := by
  rw [at?]

@[simp] theorem at?_dir_cons (es : List (FileName × Node)) (name : FileName)
    (names : List FileName) : (dir es).at? (name :: names) = (es.lookup name).bind (at? names) := by
  rw [at?_cons, entries]

@[simp] theorem at?_file_cons (bytes : List UInt8) (name : FileName) (names : List FileName) :
    (file bytes).at? (name :: names) = none := by
  rw [at?_cons, entries]
  rfl

/-- Names lead to where the first of them lead, and from there to where the others lead. -/
theorem at?_append (n : Node) (names names' : List FileName) :
    n.at? (names ++ names') = (n.at? names).bind (at? names') := by
  induction names generalizing n with
  | nil => simp
  | cons name names ih =>
    rw [List.cons_append, at?_cons, at?_cons]
    cases n.entries.lookup name with
    | none => rfl
    | some m => exact ih m

/-- Only a directory is passed on the way to somewhere else. -/
theorem exists_dir_of_at?_append {n m : Node} {names : List FileName} {name : FileName}
    {names' : List FileName} (h : n.at? (names ++ name :: names') = some m) :
    ∃ es, n.at? names = some (dir es) := by
  rw [at?_append, Option.bind_eq_some_iff] at h
  obtain ⟨t, ht, h⟩ := h
  cases t with
  | file bytes => simp at h
  | dir es => exact ⟨es, ht⟩

/-- What holds of files, and of directories with entries of which it holds, holds of all trees. -/
@[induction_eliminator]
theorem induction {motive : Node → Prop} (file : ∀ bytes, motive (.file bytes))
    (dir : ∀ es, (∀ e ∈ es, motive e.2) → motive (.dir es)) (n : Node) : motive n :=
  @Node.rec motive (fun es => ∀ e ∈ es, motive e.2) (fun e => motive e.2) file dir (by simp)
    (fun _ _ he hes => List.forall_mem_cons.2 ⟨he, hes⟩) (fun _ _ h => h) n

theorem isProper_dir_nil : (dir []).IsProper := .dir List.nodup_nil (by simp) (by simp)

/-- The entries of a proper tree make a proper directory; a file has none. -/
theorem IsProper.entries_isProper {n : Node} (h : n.IsProper) : (Node.dir n.entries).IsProper := by
  cases h with
  | file bytes => exact isProper_dir_nil
  | dir nodup isName below => exact .dir nodup isName below

/-- What lies in a proper tree is proper, and the way there goes along names. -/
theorem IsProper.at? {n m : Node} {names : List FileName} (h : n.IsProper)
    (hm : n.at? names = some m) : m.IsProper ∧ ∀ name ∈ names, IsName name := by
  induction names generalizing n with
  | nil =>
    rw [at?_nil, Option.some.injEq] at hm
    exact ⟨hm ▸ h, by simp⟩
  | cons name names ih =>
    rw [at?_cons, Option.bind_eq_some_iff] at hm
    obtain ⟨t, ht, hm⟩ := hm
    cases h with
    | file bytes => cases ht
    | dir nodup isName below =>
      have hmem := mem_of_lookup ht
      obtain ⟨hm', hnames⟩ := ih (below _ hmem) hm
      exact ⟨hm', List.forall_mem_cons.2 ⟨isName _ hmem, hnames⟩⟩

/-! ## Building a proper tree -/

/-- Setting an entry adds no other one. -/
theorem mem_of_mem_setEntry {name : FileName} {n : Node} {es : List (FileName × Node)}
    {e : FileName × Node} (h : e ∈ setEntry name n es) : e = (name, n) ∨ e ∈ es := by
  induction es with
  | nil => exact Or.inl (List.mem_singleton.1 h)
  | cons other es ih =>
    rw [setEntry] at h
    split at h
    · rcases List.mem_cons.1 h with h | h
      · exact Or.inl h
      · exact Or.inr (List.mem_cons_of_mem _ h)
    · rcases List.mem_cons.1 h with rfl | h
      · exact Or.inr (List.mem_cons_self ..)
      · exact (ih h).imp_right (List.mem_cons_of_mem _)

/-- Setting an entry does not repeat a name. -/
theorem nodup_setEntry {name : FileName} {n : Node} {es : List (FileName × Node)}
    (h : (es.map Prod.fst).Nodup) : ((setEntry name n es).map Prod.fst).Nodup := by
  induction es with
  | nil => exact List.nodup_singleton _
  | cons other es ih =>
    rw [List.map_cons, List.nodup_cons] at h
    rw [setEntry]
    split
    · next heq => exact List.nodup_cons.2 ⟨heq ▸ h.1, h.2⟩
    · next hne =>
      rw [List.map_cons, List.nodup_cons]
      refine ⟨fun hmem => ?_, ih h.2⟩
      obtain ⟨e, he, hname⟩ := List.mem_map.1 hmem
      rcases mem_of_mem_setEntry he with rfl | he
      · exact hne hname.symm
      · exact h.1 (hname ▸ List.mem_map_of_mem he)

theorem IsProper.setEntry {name : FileName} {n : Node} {es : List (FileName × Node)}
    (hname : IsName name) (hn : n.IsProper) (h : (Node.dir es).IsProper) :
    (Node.dir (setEntry name n es)).IsProper := by
  cases h with
  | dir nodup isName below =>
    refine .dir (nodup_setEntry nodup) (fun e he => ?_) (fun e he => ?_) <;>
      rcases mem_of_mem_setEntry he with rfl | he
    · exact hname
    · exact isName e he
    · exact hn
    · exact below e he

/-- The entry of a directory where a tree is to be changed, which comes into being if need be. -/
theorem IsProper.lookup_getD {t : Node} (h : t.IsProper) (name : FileName) :
    ((t.entries.lookup name).getD (Node.dir [])).IsProper := by
  cases hlookup : t.entries.lookup name with
  | none => exact isProper_dir_nil
  | some m =>
    cases h.entries_isProper with
    | dir nodup isName below => exact below _ (mem_of_lookup hlookup)

/-- A proper tree stays one when a proper tree is put where names lead. -/
theorem IsProper.put {n t : Node} {names : List FileName} (hn : n.IsProper)
    (hnames : ∀ name ∈ names, IsName name) (ht : t.IsProper) : (put n names t).IsProper := by
  induction names generalizing t with
  | nil => exact hn
  | cons name names ih =>
    rw [List.forall_mem_cons] at hnames
    exact .setEntry hnames.1 (ih hnames.2 (ht.lookup_getD name)) ht.entries_isProper

/-- A proper tree stays one when a directory is put where names lead. -/
theorem IsProper.putDir {t : Node} {names : List FileName}
    (hnames : ∀ name ∈ names, IsName name) (ht : t.IsProper) : (putDir names t).IsProper := by
  induction names generalizing t with
  | nil => exact ht.entries_isProper
  | cons name names ih =>
    rw [List.forall_mem_cons] at hnames
    exact .setEntry hnames.1 (ih hnames.2 (ht.lookup_getD name)) ht.entries_isProper

end Node

/-! ## Sorting by name -/

section Sorting

variable {α β : Type}

/-- Inserting an item adds it and loses none. -/
theorem insertByName_perm (item : FileName × α) (items : List (FileName × α)) :
    (insertByName item items).Perm (item :: items) := by
  induction items with
  | nil => exact .refl _
  | cons other others ih =>
    rw [insertByName]
    split
    · exact .refl _
    · exact (ih.cons other).trans (.swap ..)

/-- Sorting neither adds nor loses items. -/
theorem sortByName_perm (items : List (FileName × α)) : (sortByName items).Perm items := by
  induction items with
  | nil => exact .refl _
  | cons item items ih => exact (insertByName_perm item _).trans (ih.cons item)

/-- An item that is inserted stands behind all lesser ones and before all greater ones. -/
theorem pairwise_insertByName {item : FileName × α} {items : List (FileName × α)}
    (h : items.Pairwise fun e f => e.1 ≤ f.1) :
    (insertByName item items).Pairwise fun e f => e.1 ≤ f.1 := by
  induction items with
  | nil => exact List.pairwise_singleton _ _
  | cons other others ih =>
    rw [List.pairwise_cons] at h
    rw [insertByName]
    split
    · next hlt =>
      refine List.pairwise_cons.2 ⟨List.forall_mem_cons.2 ⟨List.le_of_lt hlt, fun e he => ?_⟩,
        List.pairwise_cons.2 h⟩
      exact List.le_trans (List.le_of_lt hlt) (h.1 e he)
    · next hnot =>
      refine List.pairwise_cons.2 ⟨fun e he => ?_, ih h.2⟩
      rcases List.mem_cons.1 ((insertByName_perm item others).mem_iff.1 he) with rfl | he
      · exact List.not_lt.1 hnot
      · exact h.1 e he

/-- Items with different names are put in the order of the bytes of their names. -/
theorem pairwise_sortByName {items : List (FileName × α)} (h : (items.map Prod.fst).Nodup) :
    (sortByName items).Pairwise fun e f => e.1 < f.1 := by
  have hle : (sortByName items).Pairwise fun e f => e.1 ≤ f.1 := by
    clear h
    induction items with
    | nil => exact .nil
    | cons item items ih => exact pairwise_insertByName ih
  have hne : (sortByName items).Pairwise fun e f => e.1 ≠ f.1 :=
    List.pairwise_map.1 (((sortByName_perm items).map Prod.fst).nodup_iff.2 h)
  exact (hle.and hne).imp fun ⟨hle, hne⟩ => Std.lt_of_le_of_ne hle hne

/-- What the items hold does not matter for where one is inserted. -/
theorem insertByName_map (f : FileName × α → β) (item : FileName × α)
    (items : List (FileName × α)) : insertByName (item.1, f item) (items.map fun e => (e.1, f e)) =
      (insertByName item items).map fun e => (e.1, f e) := by
  induction items with
  | nil => rfl
  | cons other others ih =>
    simp only [List.map_cons, insertByName]
    split
    · rfl
    · rw [List.map_cons, ih]

/-- What items hold does not matter for their order. -/
theorem sortByName_map (f : FileName × α → β) (items : List (FileName × α)) :
    sortByName (items.map fun e => (e.1, f e)) = (sortByName items).map fun e => (e.1, f e) := by
  induction items with
  | nil => rfl
  | cons item items ih =>
    change insertByName _ (sortByName (items.map _)) = (insertByName item (sortByName items)).map _
    rw [ih, insertByName_map]

end Sorting

/-! ## The places of a tree -/

/-- The path of the place that names lead to from a path. -/
def spell (path : Path) (names : List FileName) : Path := names.foldl join path

@[simp] theorem spell_nil (path : Path) : spell path [] = path := rfl

theorem spell_cons (path : Path) (name : FileName) (names : List FileName) :
    spell path (name :: names) = spell (join path name) names := rfl

/-- Whether names are passed before others in a walk: they lead to a directory on the way, or the
first that differs has the lesser bytes. -/
def Precedes (names names' : List FileName) : Prop :=
  List.Lex (fun s t => s < t) names names'

/-- The walks below the entries of a directory are those from each of its entries. -/
theorem walkEntries_eq (path : Path) (location : List FileName) (es : List (FileName × Node)) :
    walkEntries path location es =
      es.map fun e => (e.1, e.2.walk (join path e.1) (location ++ [e.1])) := by
  induction es with
  | nil => rw [walkEntries, List.map_nil]
  | cons e es ih => rw [walkEntries, List.map_cons, ih]

namespace Node

theorem walk_file (path : Path) (location : List FileName) (bytes : List UInt8) :
    (file bytes).walk path location = [⟨path, location, true⟩] := by
  rw [walk]

/-- A walk comes by a directory first, and then by what its entries hold, in the order of their
names. -/
theorem walk_dir (path : Path) (location : List FileName) (es : List (FileName × Node)) :
    (dir es).walk path location = ⟨path, location, false⟩ ::
      (sortByName es).flatMap fun e => e.2.walk (join path e.1) (location ++ [e.1]) := by
  rw [walk, walkEntries_eq, sortByName_map fun e : FileName × Node =>
    e.2.walk (join path e.1) (location ++ [e.1]), List.flatMap_map]

/-- The names that lead to the places of a tree, in the order of a walk. -/
def places (n : Node) : List (List FileName) := (n.walk [] []).map Entry.location

/-- Where a walk starts from does not matter for the places that it comes by. -/
theorem map_location_walk (n : Node) (path : Path) (location : List FileName) :
    (n.walk path location).map Entry.location = n.places.map (location ++ ·) := by
  rw [places, List.map_map]
  suffices ∀ path' location', (n.walk path (location ++ location')).map Entry.location =
      (n.walk path' location').map ((location ++ ·) ∘ Entry.location) by
    simpa using this [] []
  induction n generalizing path with
  | file bytes => simp [walk_file]
  | dir es ih =>
    intro path' location'
    simp only [walk_dir, List.map_cons, List.map_flatMap, Function.comp_apply, List.append_assoc]
    refine congrArg _ (List.flatMap_congr fun e he => ?_)
    exact ih e ((sortByName_perm es).mem_iff.1 he) _ _ _

theorem places_file (bytes : List UInt8) : (file bytes).places = [[]] := by
  rw [places, walk_file, List.map_singleton]

/-- The places of a directory are itself and those of its entries, behind their names. -/
theorem places_dir (es : List (FileName × Node)) :
    (dir es).places = [] :: (sortByName es).flatMap fun e => e.2.places.map (e.1 :: ·) := by
  rw [places, walk_dir, List.map_cons, List.map_flatMap]
  refine congrArg _ (List.flatMap_congr fun e _ => ?_)
  rw [map_location_walk]
  rfl

/-- The entry for the place that names lead to, if a walk starts with a path from a location. -/
def entryAt (n : Node) (path : Path) (location names : List FileName) : Entry :=
  ⟨spell path names, location ++ names, (n.at? names).any isFile⟩

/-- The name of an entry leads to it, since no other entry has that name. -/
theorem IsProper.at?_cons {es : List (FileName × Node)} (h : (Node.dir es).IsProper)
    {e : FileName × Node} (he : e ∈ es) (names : List FileName) :
    (Node.dir es).at? (e.1 :: names) = e.2.at? names := by
  cases h with
  | dir nodup =>
    rw [at?_dir_cons, (lookup_eq_some_iff nodup).2 he]
    rfl

/-- A walk comes by the places of a tree. -/
theorem walk_eq {n : Node} (h : n.IsProper) (path : Path) (location : List FileName) :
    n.walk path location = n.places.map (n.entryAt path location) := by
  induction n generalizing path location with
  | file bytes => simp [walk_file, places_file, entryAt, isFile]
  | dir es ih =>
    have hbelow : ∀ e ∈ es, e.2.IsProper := by
      cases h with
      | dir nodup isName below => exact below
    rw [walk_dir, places_dir, List.map_cons, List.map_flatMap]
    refine congrArg₂ List.cons (by simp [entryAt, isFile]) (List.flatMap_congr fun e he => ?_)
    have he := (sortByName_perm es).mem_iff.1 he
    rw [ih e he (hbelow e he), List.map_map]
    refine List.map_congr_left fun names _ => ?_
    simp only [entryAt, Function.comp_apply, h.at?_cons he, spell_cons, List.append_assoc,
      List.singleton_append]

/-- The places of a tree are where names lead. -/
theorem mem_places {n : Node} (h : n.IsProper) {names : List FileName} :
    names ∈ n.places ↔ ∃ m, n.at? names = some m := by
  induction n generalizing names with
  | file bytes => cases names <;> simp [places_file]
  | dir es ih =>
    cases h with
    | dir nodup isName below =>
    cases names with
    | nil => simp [places_dir]
    | cons name names =>
      simp only [places_dir, List.mem_cons, reduceCtorEq, false_or, List.mem_flatMap,
        List.mem_map, List.cons.injEq, at?_dir_cons, Option.bind_eq_some_iff,
        lookup_eq_some_iff nodup]
      constructor
      · rintro ⟨e, he, names, hnames, rfl, rfl⟩
        have he := (sortByName_perm es).mem_iff.1 he
        obtain ⟨m, hm⟩ := (ih e he (below e he)).1 hnames
        exact ⟨m, e.2, he, hm⟩
      · rintro ⟨m, t, ht, hm⟩
        exact ⟨_, (sortByName_perm es).mem_iff.2 ht, names, (ih _ ht (below _ ht)).2 ⟨m, hm⟩,
          rfl, rfl⟩

/-- **The order of a walk.**  The places of a tree are passed in the order of the bytes of the
names that lead there. -/
theorem pairwise_places {n : Node} (h : n.IsProper) : n.places.Pairwise Precedes := by
  induction n with
  | file bytes => simp [places_file]
  | dir es ih =>
    cases h with
    | dir nodup isName below =>
    rw [places_dir, List.pairwise_cons, List.pairwise_flatMap]
    refine ⟨fun names hnames => ?_, fun e he => ?_, ?_⟩
    · obtain ⟨e, -, hnames⟩ := List.mem_flatMap.1 hnames
      obtain ⟨names, -, rfl⟩ := List.mem_map.1 hnames
      exact List.Lex.nil
    · have he := (sortByName_perm es).mem_iff.1 he
      exact List.pairwise_map.2 ((ih e he (below e he)).imp List.Lex.cons)
    · refine (pairwise_sortByName nodup).imp fun hlt names hnames names' hnames' => ?_
      obtain ⟨names, -, rfl⟩ := List.mem_map.1 hnames
      obtain ⟨names', -, rfl⟩ := List.mem_map.1 hnames'
      exact List.Lex.rel hlt

end Node

end SchemaCatalog.Files

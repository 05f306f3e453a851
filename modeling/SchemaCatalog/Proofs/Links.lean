/-
# What linking adds

Linking is compared with what the types of a table declare before it starts.  Each
interface receives the name of every type as often as that type names it, in the
order of the table; nothing else changes, and what is added links nothing further.
-/
import Mathlib.Data.List.Basic
import SchemaCatalog.Proofs.Catalogs

namespace SchemaCatalog

open Document (Outline)

/-! ## Some links at once -/

namespace Link

/-- The names that links add to the type at a place, when the types of a table have
these names. -/
def namesFor (keys : List String) (ls : List Link) (place : Nat) : List String :=
  ls.filterMap fun l => if l.target = place then keys[l.implementor]? else none

/-- The entry at a place of a table after some links. -/
def entryAfter (keys : List String) (ls : List Link) (place : Nat) (r : TypeEntry) : TypeEntry :=
  if r.kind.isInterface then
    { r with interfaces := r.interfaces ++ namesFor keys ls place }
  else r

@[simp] theorem entryAfter_nil (keys : List String) (place : Nat) (r : TypeEntry) :
    entryAfter keys [] place r = r := by
  simp [entryAfter, namesFor]

/-- The first link adds its name before the others. -/
theorem entryAfter_cons (keys : List String) (l : Link) (ls : List Link) (place : Nat)
    (r : TypeEntry) :
    entryAfter keys ls place (entryAfter keys [l] place r) = entryAfter keys (l :: ls) place r := by
  unfold entryAfter
  by_cases h : r.kind.isInterface = true
  · have hnames : namesFor keys (l :: ls) place =
        namesFor keys [l] place ++ namesFor keys ls place := by
      rw [namesFor, ← List.singleton_append, List.filterMap_append]
      rfl
    simp [h, hnames]
  · simp [h]

theorem keys_apply (types : Table TypeEntry) (l : Link) : (l.apply types).keys = types.keys := by
  rw [apply]
  split
  · rfl
  · exact Table.keys_modifyAt _ _ _

/-- **One link.**  It changes the entry at the place of its target. -/
theorem rows_apply (types : Table TypeEntry) (l : Link) (i : Nat) :
    (l.apply types).rows[i]? =
      types.rows[i]?.map fun e => (e.1, entryAfter types.keys [l] i e.2) := by
  have hkey : types.keys[l.implementor]? = types.rows[l.implementor]?.map Prod.fst := by
    simp [Table.keys]
  rw [apply]
  cases hrow : types.rows[l.implementor]? with
  | none =>
    rw [hrow] at hkey
    cases types.rows[i]? <;> simp [entryAfter, namesFor, hkey]
  | some row =>
    rw [hrow] at hkey
    simp only [Table.rows_modifyAt, List.getElem?_modify]
    by_cases hi : l.target = i
    · cases types.rows[i]? <;> simp [entryAfter, namesFor, hkey, hi, TypeEntry.addInterface]
    · cases types.rows[i]? <;> simp [entryAfter, namesFor, hi]

/-- **A run of links.**  It changes every entry by the links that lead to it. -/
theorem rows_foldl_apply (ls : List Link) (types : Table TypeEntry) (i : Nat) :
    (ls.foldl apply types).rows[i]? =
      types.rows[i]?.map fun e => (e.1, entryAfter types.keys ls i e.2) := by
  induction ls generalizing types with
  | nil => simp
  | cons l ls ih =>
    rw [List.foldl_cons, ih, rows_apply, keys_apply, Option.map_map]
    refine congrArg (types.rows[i]?.map ·) (funext fun e => ?_)
    simp only [Function.comp_apply, entryAfter_cons]

/-- Whatever links are applied, the types keep their names and their order. -/
theorem keys_foldl_apply (ls : List Link) (types : Table TypeEntry) :
    (ls.foldl apply types).keys = types.keys := by
  induction ls generalizing types with
  | nil => rfl
  | cons l ls ih => rw [List.foldl_cons, ih, keys_apply]

/-! ## The links of a table -/

/-- The links of one type that lead to a place carry its name as often as it names the
type at that place. -/
theorem namesFor_targets {types : Table TypeEntry} {place implementor : Nat}
    {target name : String} (ht : types.keys[place]? = some target)
    (hn : types.keys[implementor]? = some name) (interfaces : List String) :
    namesFor types.keys
        ((interfaces.filterMap types.indexOf?).map fun t => ⟨implementor, t⟩) place =
      List.replicate (interfaces.count target) name := by
  induction interfaces with
  | nil => rfl
  | cons s ss ih =>
    rw [List.filterMap_cons]
    -- a name that occurs has one place only, so other names lead to other places
    by_cases hs : s = target
    · have hi : types.indexOf? s = some place := Table.indexOf?_eq_some_iff.2 (hs ▸ ht)
      rw [namesFor] at ih ⊢
      simp only [hi, List.map_cons, List.filterMap_cons, ↓reduceIte, hn, ih]
      simp [hs, List.replicate_succ]
    · have hcount : (s :: ss).count target = ss.count target := by simp [hs]
      rw [hcount]
      cases hi : types.indexOf? s with
      | none => exact ih
      | some j =>
        have hj : j ≠ place := by
          rintro rfl
          have := Table.indexOf?_eq_some_iff.1 hi
          rw [ht] at this
          exact hs (Option.some.inj this).symm
        rw [namesFor] at ih ⊢
        simp only [List.map_cons, List.filterMap_cons, hj, ↓reduceIte, ih]

end Link

/-- The types of a table that name one type as their interface, in the order of the
table, each as often as it does. -/
def implementorsOf (types : Table TypeEntry) (target : String) : List String :=
  types.rows.flatMap fun e => List.replicate (e.2.interfaces.count target) e.1

/-- The links of a table that lead to a type carry the names of its implementors. -/
theorem Link.namesFor_declared {types : Table TypeEntry} {place : Nat} {target : String}
    (ht : types.keys[place]? = some target) :
    namesFor types.keys (declared types) place = implementorsOf types target := by
  have hzip : types.rows.zipIdx.flatMap (fun e =>
      List.replicate (e.1.2.interfaces.count target) e.1.1) = implementorsOf types target := by
    rw [implementorsOf, ← List.zipIdx_map_fst 0 types.rows, List.flatMap_map]
    simp
  rw [← hzip, namesFor, declared, List.filterMap_flatMap]
  refine List.flatMap_congr fun e he => ?_
  have hrow : types.rows[e.2]? = some e.1 := by
    obtain ⟨hlt, hval⟩ := List.mem_zipIdx' he
    rw [List.getElem?_eq_getElem hlt, hval]
  exact namesFor_targets ht (by simp [Table.keys, hrow]) e.1.2.interfaces

/-- The entry of a type after linking: an interface lists its implementors behind what
it declares itself. -/
def linkedEntry (types : Table TypeEntry) (name : String) (r : TypeEntry) : TypeEntry :=
  { r with
    interfaces :=
      if r.kind.isInterface then r.interfaces ++ implementorsOf types name else r.interfaces }

/-- **Linking as one equation.**  Every entry is linked by what the table declares before
any of them is. -/
theorem linkImplementors_eq (types : Table TypeEntry) :
    linkImplementors types = types.mapWithKey (linkedEntry types) := by
  refine Table.ext_rows (List.ext_getElem? fun i => ?_)
  rw [linkImplementors, Link.rows_foldl_apply, Table.rows_mapWithKey, List.getElem?_map]
  cases hrow : types.rows[i]? with
  | none => rfl
  | some e =>
    have hkey : types.keys[i]? = some e.1 := by simp [Table.keys, hrow]
    cases hk : e.2.kind.isInterface <;>
      simp [Link.entryAfter, linkedEntry, Link.namesFor_declared hkey, hk]

theorem get?_linkImplementors (types : Table TypeEntry) (name : String) :
    (linkImplementors types).get? name = (types.get? name).map (linkedEntry types name) := by
  rw [linkImplementors_eq, Table.get?_mapWithKey]

/-! ## Implementors -/

/-- The implementors of a type are the types that name it. -/
theorem mem_implementorsOf {types : Table TypeEntry} {target name : String} :
    name ∈ implementorsOf types target ↔
      ∃ r, types.get? name = some r ∧ target ∈ r.interfaces := by
  rw [implementorsOf, List.mem_flatMap]
  constructor
  · rintro ⟨⟨key, r⟩, he, hname⟩
    obtain ⟨hpos, rfl⟩ := List.mem_replicate.1 hname
    exact ⟨r, Table.mem_rows_iff.1 he, List.count_pos_iff.1 (Nat.pos_of_ne_zero hpos)⟩
  · rintro ⟨r, hr, ht⟩
    exact ⟨(name, r), Table.mem_rows_iff.2 hr,
      List.mem_replicate.2 ⟨Nat.pos_iff_ne_zero.1 (List.count_pos_iff.2 ht), rfl⟩⟩

/-- A type is among the implementors of another as often as it names it. -/
theorem count_implementorsOf {types : Table TypeEntry} {target name : String} {r : TypeEntry}
    (hr : types.get? name = some r) :
    (implementorsOf types target).count name = r.interfaces.count target := by
  obtain ⟨rows, hd⟩ := types
  rw [Table.get?] at hr
  show (rows.flatMap fun e => List.replicate (e.2.interfaces.count target) e.1).count name = _
  induction rows with
  | nil => simp at hr
  | cons e es ih =>
    rw [List.map_cons, List.nodup_cons] at hd
    rw [List.lookup_cons] at hr
    rw [List.flatMap_cons, List.count_append, List.count_replicate]
    by_cases h : name = e.1
    · -- the names of a table are all different, so no later type has this one
      have hrest : (es.flatMap fun e =>
          List.replicate (e.2.interfaces.count target) e.1).count name = 0 := by
        rw [List.count_eq_zero, List.mem_flatMap]
        rintro ⟨e', he', hname⟩
        rw [(List.mem_replicate.1 hname).2] at h
        exact hd.1 (h ▸ List.mem_map_of_mem (f := Prod.fst) he')
      simp only [h, beq_self_eq_true, Option.some.injEq] at hr
      rw [hrest, ← hr]
      simp [h]
    · have hne : (name == e.1) = false := by simp [h]
      simp only [hne] at hr
      rw [ih hd.2 hr]
      simp [Ne.symm h]

/-- What two interfaces list of each other is the same: each lists the other as often
as the two name each other. -/
theorem count_interfaces_symm {types : Table TypeEntry} {a b : String} {ra rb : TypeEntry}
    (ha : (linkImplementors types).get? a = some ra)
    (hb : (linkImplementors types).get? b = some rb) (hia : ra.kind.isInterface = true)
    (hib : rb.kind.isInterface = true) : ra.interfaces.count b = rb.interfaces.count a := by
  rw [get?_linkImplementors, Option.map_eq_some_iff] at ha hb
  obtain ⟨sa, hsa, rfl⟩ := ha
  obtain ⟨sb, hsb, rfl⟩ := hb
  have hca : (linkedEntry types a sa).interfaces = sa.interfaces ++ implementorsOf types a :=
    if_pos hia
  have hcb : (linkedEntry types b sb).interfaces = sb.interfaces ++ implementorsOf types b :=
    if_pos hib
  -- what each declares of the other and what the other's declarations add to it, in turn
  rw [hca, hcb, List.count_append, List.count_append, count_implementorsOf hsa,
    count_implementorsOf hsb]
  omega

/-- What a type declares of an interface is listed by both of them. -/
theorem implements_of_mem {types : Table TypeEntry} {name target : String} {r i : TypeEntry}
    (hr : types.get? name = some r) (ht : target ∈ r.interfaces)
    (hi : (linkImplementors types).get? target = some i) (hk : i.kind.isInterface = true) :
    i.implements name = true ∧
      ∃ r', (linkImplementors types).get? name = some r' ∧ r'.implements target = true := by
  constructor
  · rw [get?_linkImplementors, Option.map_eq_some_iff] at hi
    obtain ⟨si, -, rfl⟩ := hi
    have hlist : (linkedEntry types target si).interfaces =
        si.interfaces ++ implementorsOf types target := if_pos hk
    rw [TypeEntry.implements, decide_eq_true_iff, hlist]
    exact List.mem_append_right _ (mem_implementorsOf.2 ⟨r, hr, ht⟩)
  · refine ⟨linkedEntry types name r, by rw [get?_linkImplementors, hr]; rfl, ?_⟩
    rw [TypeEntry.implements, decide_eq_true_iff, linkedEntry]
    split
    · exact List.mem_append_left _ ht
    · exact ht

/-- **Linking is exact.**  It keeps the types, their order, and all that is said of
them, except that each interface lists behind its own declarations every type that
names it, in the order of the table and as often as it does; what is added leads to
nothing further.  So in every catalog a type and an interface that it declares list each
other, and two interfaces list each other equally often. -/
theorem linkImplementors_exact :
    (∀ types : Table TypeEntry, (linkImplementors types).keys = types.keys ∧
      ∀ name r, types.get? name = some r → ∃ r', (linkImplementors types).get? name = some r' ∧
        r'.kind = r.kind ∧ r'.description = r.description ∧ r'.fields = r.fields ∧
        r'.values = r.values ∧ r'.unionMembers = r.unionMembers ∧
        r'.interfaces =
          if r.kind.isInterface then
            r.interfaces ++ types.rows.flatMap fun e =>
              List.replicate (e.2.interfaces.count name) e.1
          else r.interfaces) ∧
    ∀ (s : Source) (c : Catalog), s.catalog = .ok c →
      (∃ text ds, s.toText = .ok text ∧ Catalog.definitionsOf text = .ok ds ∧
        ∀ name target i, Document.Declares ds name target → c.get? target = some i →
          i.kind.isInterface = true → i.implements name = true ∧
            ∃ r, c.get? name = some r ∧ r.implements target = true) ∧
      ∀ a b ra rb, c.get? a = some ra → c.get? b = some rb → ra.kind.isInterface = true →
        rb.kind.isInterface = true → ra.interfaces.count b = rb.interfaces.count a := by
  refine ⟨fun types => ⟨Link.keys_foldl_apply _ _, fun name r hr => ?_⟩, fun s c h => ?_⟩
  · exact ⟨linkedEntry types name r, by rw [get?_linkImplementors, hr]; rfl, rfl, rfl, rfl, rfl,
      rfl, rfl⟩
  · obtain ⟨text, ds, htext, hds, hc⟩ := Source.catalog_eq_ok h
    obtain ⟨o, ho, htypes, -⟩ := Catalog.ofDefinitions_eq_ok hc
    have hholds : o.Holds ds := (Outline.holds_of_ofDefinitions ho).2
    rw [Catalog.typesOf] at htypes
    refine ⟨⟨text, ds, htext, hds, fun name target i hdecl hi hk => ?_⟩,
      fun a b ra rb ha hb hia hib => ?_⟩
    · rw [Catalog.get?, htypes] at hi
      obtain ⟨r, hr, ht⟩ := exists_entry_of_declares hholds hdecl
      rw [Catalog.get?, htypes]
      exact implements_of_mem hr ht hi hk
    · rw [Catalog.get?, htypes] at ha hb
      exact count_interfaces_symm ha hb hia hib

/-- Two interfaces that name each other, one of them twice, and themselves. -/
theorem linkImplementors_exact_cycle :
    let a : TypeEntry :=
      ⟨.definition .interface, none, [], [], [], ["B", "B", "A", "A", "B"]⟩
    let b : TypeEntry := ⟨.definition .interface, none, [], [], [], ["A", "A", "A"]⟩
    let c : Catalog := ⟨⟨[("A", a), ("B", b)], by decide⟩, [], none⟩
    (Source.text "interface A implements B & B & A interface B implements A").catalog = .ok c ∧
      a.interfaces.count "B" = b.interfaces.count "A" := by
  intro a b c
  have h : (Source.text "interface A implements B & B & A interface B implements A").catalog
      = .ok c := by rfl
  exact ⟨h, (linkImplementors_exact.2 _ c h).2 "A" "B" a b rfl rfl rfl rfl⟩

end SchemaCatalog

/-
# Tables

A table holds values under distinct keys and remembers the order in which the
keys came in.
-/

namespace SchemaCatalog

/-- Values under distinct keys, in the order in which the keys came in. -/
structure Table (α : Type) where
  /-- The keys with their values. -/
  rows : List (String × α)
  /-- No key occurs twice. -/
  nodup_keys : (rows.map Prod.fst).Nodup

namespace Table

variable {α β : Type}

/-- The table without rows. -/
def empty : Table α := ⟨[], by simp⟩

/-- The keys of a table, in order. -/
def keys (t : Table α) : List String := t.rows.map Prod.fst

/-- The values of a table, in order. -/
def values (t : Table α) : List α := t.rows.map Prod.snd

/-- The number of rows. -/
def size (t : Table α) : Nat := t.rows.length

/-- The value under a key. -/
def get? (t : Table α) (key : String) : Option α := t.rows.lookup key

/-- The place of a key among the keys, counted from zero. -/
def indexOf? (t : Table α) (key : String) : Option Nat := t.keys.idxOf? key

/-- Whether there is a value under a key. -/
def contains (t : Table α) (key : String) : Bool := (t.get? key).isSome

/-! ## Keys and values -/

/-- A key is found exactly if it is one of the keys. -/
theorem contains_iff {t : Table α} {key : String} : t.contains key = true ↔ key ∈ t.keys := by
  rw [contains, get?, keys]
  induction t.rows with
  | nil => simp
  | cons e es ih =>
    rw [List.lookup_cons]
    by_cases h : key = e.1
    · simp [h]
    · have : (key == e.1) = false := by simp [h]
      simp only [this, List.map_cons, List.mem_cons, h, false_or]
      exact ih

theorem not_mem_keys_of_contains {t : Table α} {key : String} (h : t.contains key = false) :
    key ∉ t.keys := by
  intro hk
  rw [contains_iff.2 hk] at h
  exact absurd h (by simp)

/-- A key without a value is none of the keys. -/
theorem get?_eq_none_iff {t : Table α} {key : String} : t.get? key = none ↔ key ∉ t.keys := by
  rw [← contains_iff, contains]
  cases t.get? key <;> simp

/-- The rows are the keys with the values found under them. -/
theorem mem_rows_iff {t : Table α} {key : String} {value : α} :
    (key, value) ∈ t.rows ↔ t.get? key = some value := by
  obtain ⟨rows, hd⟩ := t
  rw [get?]
  induction rows with
  | nil => simp
  | cons e es ih =>
    rw [List.map_cons, List.nodup_cons] at hd
    rw [List.lookup_cons, List.mem_cons]
    by_cases h : key = e.1
    · have hk : (key, value) ∉ es := by
        intro hm
        exact hd.1 (h ▸ List.mem_map_of_mem (f := Prod.fst) hm)
      obtain ⟨k, v⟩ := e
      obtain rfl : key = k := h
      simp [hk, eq_comm]
    · have hne : (key == e.1) = false := by simp [h]
      have : (key, value) ≠ e := by rintro rfl; exact h rfl
      simp only [hne, this, false_or]
      exact ih hd.2

/-- A key is found at its place and at no other. -/
theorem indexOf?_eq_some_iff {t : Table α} {key : String} {i : Nat} :
    t.indexOf? key = some i ↔ t.keys[i]? = some key := by
  rw [indexOf?, List.idxOf?_eq_some_iff, List.getElem?_eq_some_iff]
  constructor
  · rintro ⟨h, hi, -⟩
    exact ⟨h, hi⟩
  · rintro ⟨h, hi⟩
    refine ⟨h, hi, fun j hj hjk => ?_⟩
    have := (List.getElem_inj t.nodup_keys).1 (hjk.trans hi.symm)
    omega

/-- A table is its rows. -/
theorem ext_rows {s t : Table α} (h : s.rows = t.rows) : s = t := by
  cases s; cases t; cases h; rfl

/-! ## Changing a table -/

/-- Puts a value under a new key behind all others.  A key that is there keeps
its value. -/
def insert (t : Table α) (key : String) (value : α) : Table α :=
  if h : t.contains key = true then t
  else
    ⟨t.rows ++ [(key, value)], by
      have hk : key ∉ t.rows.map Prod.fst :=
        not_mem_keys_of_contains (by simpa using h)
      simp only [List.map_append, List.map_cons, List.map_nil]
      refine List.nodup_append.2 ⟨t.nodup_keys, by simp, ?_⟩
      intro a ha b hb
      simp only [List.mem_singleton] at hb
      subst hb
      rintro rfl
      exact hk ha⟩

/-- Changes every value, as its key tells. -/
def mapWithKey (f : String → α → β) (t : Table α) : Table β :=
  ⟨t.rows.map fun e => (e.1, f e.1 e.2), by
    simpa [List.map_map, Function.comp_def] using t.nodup_keys⟩

/-- Changes the value under one key. -/
def modify (t : Table α) (key : String) (f : α → α) : Table α :=
  t.mapWithKey fun k v => if k = key then f v else v

/-- Puts a value under a key, in place of the one that is there. -/
def put (t : Table α) (key : String) (value : α) : Table α :=
  if t.contains key then t.modify key fun _ => value else t.insert key value

/-- Changing the value of a row leaves its key. -/
theorem map_fst_modify (rows : List (String × α)) (i : Nat) (f : α → α) :
    (rows.modify i fun e => (e.1, f e.2)).map Prod.fst = rows.map Prod.fst := by
  refine List.ext_getElem? fun j => ?_
  simp only [List.getElem?_map, List.getElem?_modify]
  cases rows[j]? <;> simp [apply_ite Prod.fst]

/-- Changes the value at one place. -/
def modifyAt (t : Table α) (i : Nat) (f : α → α) : Table α :=
  ⟨t.rows.modify i fun e => (e.1, f e.2), by
    rw [map_fst_modify]
    exact t.nodup_keys⟩

@[simp] theorem rows_modifyAt (t : Table α) (i : Nat) (f : α → α) :
    (t.modifyAt i f).rows = t.rows.modify i fun e => (e.1, f e.2) := rfl

@[simp] theorem rows_mapWithKey (f : String → α → β) (t : Table α) :
    (t.mapWithKey f).rows = t.rows.map fun e => (e.1, f e.1 e.2) := rfl

@[simp] theorem keys_empty : (empty : Table α).keys = [] := rfl

/-- Changing values leaves the keys. -/
@[simp] theorem keys_mapWithKey (f : String → α → β) (t : Table α) :
    (t.mapWithKey f).keys = t.keys := by
  simp [keys, mapWithKey, List.map_map, Function.comp_def]

/-- Changing one value leaves the keys. -/
@[simp] theorem keys_modify (t : Table α) (key : String) (f : α → α) :
    (t.modify key f).keys = t.keys :=
  keys_mapWithKey _ t

/-- Changing the value at one place leaves the keys. -/
@[simp] theorem keys_modifyAt (t : Table α) (i : Nat) (f : α → α) :
    (t.modifyAt i f).keys = t.keys :=
  map_fst_modify t.rows i f

/-- A new key comes last. -/
theorem keys_insert_of_not_contains {t : Table α} {key : String} {value : α}
    (h : t.contains key = false) : (t.insert key value).keys = t.keys ++ [key] := by
  simp [insert, h, keys]

/-- A changed table holds the changed values. -/
theorem get?_mapWithKey (f : String → α → β) (t : Table α) (key : String) :
    (t.mapWithKey f).get? key = (t.get? key).map (f key) := by
  obtain ⟨rows, hd⟩ := t
  show (rows.map fun e => (e.1, f e.1 e.2)).lookup key = (rows.lookup key).map (f key)
  clear hd
  induction rows with
  | nil => rfl
  | cons e es ih =>
    rw [List.map_cons, List.lookup_cons, List.lookup_cons]
    by_cases h : key = e.1
    · simp [h]
    · have : (key == e.1) = false := by simp [h]
      simpa only [this] using ih

/-- Only the value under the key is changed. -/
theorem get?_modify (t : Table α) (key : String) (f : α → α) (k : String) :
    (t.modify key f).get? k = if k = key then (t.get? k).map f else t.get? k := by
  rw [modify, get?_mapWithKey]
  split
  · rfl
  · cases t.get? k <;> rfl

/-- A new key has the value that came with it; the others keep theirs. -/
theorem get?_insert_of_not_contains {t : Table α} {key : String} {value : α}
    (h : t.contains key = false) (k : String) :
    (t.insert key value).get? k = if k = key then some value else t.get? k := by
  have hrows : (t.insert key value).rows = t.rows ++ [(key, value)] := by simp [insert, h]
  rw [get?, hrows, List.lookup_append, ← get?]
  split
  · next hk =>
    subst hk
    have hn : t.get? k = none := get?_eq_none_iff.2 (not_mem_keys_of_contains h)
    simp [hn]
  · next hk =>
    have hne : (k == key) = false := by simp [hk]
    simp [List.lookup_cons, hne]

/-- The value that is put under a key is found there; the others stay. -/
theorem get?_put (t : Table α) (key : String) (value : α) (k : String) :
    (t.put key value).get? k = if k = key then some value else t.get? k := by
  rw [put]
  split
  · next h =>
    rw [get?_modify]
    split
    · next hk =>
      obtain ⟨v, hv⟩ := Option.isSome_iff_exists.1 h
      rw [hk, hv, Option.map_some]
    · rfl
  · next h => exact get?_insert_of_not_contains (by simpa using h) k

/-- Whether two tables hold the same values under the same keys, in any order. -/
def agrees [DecidableEq α] (s t : Table α) : Bool :=
  s.size = t.size && s.rows.all fun e => t.get? e.1 = some e.2

end Table

end SchemaCatalog

/-
# Layouts of JSON texts

The two ways of writing a value differ only in the white space between its parts.  So both
are instances of one writer, and what is proved of that one holds of both: the text of a
value is read back as that value, whatever follows it.  The reader has limits, so this is
said of values that keep to them, and whose objects repeat no key.
-/
import SchemaCatalog.Json.Reader
import SchemaCatalog.Json.Writer

namespace SchemaCatalog.Json

/-! ## Keys -/

/-- In every object of a value the keys are distinct. -/
inductive HasDistinctKeys : Json → Prop
  | null : HasDistinctKeys null
  | bool (b : Bool) : HasDistinctKeys (bool b)
  | number (text : String) : HasDistinctKeys (number text)
  | string (s : String) : HasDistinctKeys (string s)
  | array {vs : List Json} (items : ∀ v ∈ vs, HasDistinctKeys v) : HasDistinctKeys (array vs)
  | object {ms : List (String × Json)} (keys : (ms.map Prod.fst).Nodup)
      (values : ∀ m ∈ ms, HasDistinctKeys m.2) : HasDistinctKeys (object ms)

/-- The keys of an object, in order. -/
def keys : Json → List String
  | object ms => ms.map Prod.fst
  | _ => []

/-- A value without numbers that opens no more than so many arrays and objects at once,
and repeats no key within an object. -/
inductive Fits : Nat → Json → Prop
  | null (n : Nat) : Fits n null
  | bool (n : Nat) (b : Bool) : Fits n (bool b)
  | string (n : Nat) (s : String) : Fits n (string s)
  | array {n : Nat} {vs : List Json} (items : ∀ v ∈ vs, Fits n v) : Fits (n + 1) (array vs)
  | object {n : Nat} {ms : List (String × Json)} (keys : (ms.map Prod.fst).Nodup)
      (values : ∀ m ∈ ms, Fits n m.2) : Fits (n + 1) (object ms)

theorem Fits.hasDistinctKeys {n : Nat} {v : Json} (h : Fits n v) : v.HasDistinctKeys := by
  induction h with
  | null => exact .null
  | bool _ b => exact .bool b
  | string _ s => exact .string s
  | array _ ih => exact .array ih
  | object keys _ ih => exact .object keys ih

/-- What fits into some levels fits into more. -/
theorem Fits.mono {m n : Nat} {v : Json} (h : Fits m v) (hmn : m ≤ n) : Fits n v := by
  induction h generalizing n with
  | null => exact .null n
  | bool _ b => exact .bool n b
  | string _ s => exact .string n s
  | array _ ih =>
    obtain ⟨k, rfl⟩ : ∃ k, n = k + 1 := ⟨n - 1, by omega⟩
    exact .array fun v hv => ih v hv (by omega)
  | object keys _ ih =>
    obtain ⟨k, rfl⟩ : ∃ k, n = k + 1 := ⟨n - 1, by omega⟩
    exact .object keys fun m hm => ih m hm (by omega)

/-! ## Layouts -/

/-- How the parts of a value are set apart: by white space before each item of an array or
an object and before its end, as the level tells, and by white space behind a colon. -/
structure Layout where
  gap : Nat → List Char
  space : List Char
  isBlank_gap : ∀ level, (gap level).all isBlank = true
  isBlank_space : space.all isBlank = true

namespace Layout

/-- All in one line, without any space. -/
def inLine : Layout := ⟨fun _ => [], [], fun _ => rfl, rfl⟩

/-- Each item on a line of its own. -/
def overLines : Layout where
  gap := newLine
  space := [' ']
  isBlank_gap level := by simp [newLine, isBlank]
  isBlank_space := rfl

mutual

/-- A value that stands at a level. -/
def write (L : Layout) (level : Nat) : Json → List Char
  | null => "null".toList
  | bool b => (if b then "true" else "false").toList
  | number text => text.toList
  | string s => quoted s
  | array [] => ['[', ']']
  | array (v :: vs) => '[' :: (writeItems L (level + 1) (v :: vs) ++ L.gap level ++ [']'])
  | object [] => ['{', '}']
  | object (m :: ms) => '{' :: (writeMembers L (level + 1) (m :: ms) ++ L.gap level ++ ['}'])

/-- The items of an array. -/
def writeItems (L : Layout) (level : Nat) : List Json → List Char
  | [] => []
  | [v] => L.gap level ++ write L level v
  | v :: vs => L.gap level ++ (write L level v ++ ',' :: writeItems L level vs)

/-- The members of an object. -/
def writeMembers (L : Layout) (level : Nat) : List (String × Json) → List Char
  | [] => []
  | [(k, v)] => L.gap level ++ (quoted k ++ ':' :: (L.space ++ write L level v))
  | (k, v) :: ms =>
    L.gap level ++
      (quoted k ++ ':' :: (L.space ++ (write L level v ++ ',' :: writeMembers L level ms)))

end

/-! ## The two ways of writing -/

mutual

theorem write_inLine (level : Nat) : ∀ v : Json, inLine.write level v = compactChars v
  | null | bool _ | number _ | string _ | array [] | object [] => by
    rw [write, compactChars] <;> rfl
  | array (v :: vs) => by
    rw [write, compactChars, writeItems_inLine (level + 1) (v :: vs)]
    simp [inLine]
  | object (m :: ms) => by
    rw [write, compactChars, writeMembers_inLine (level + 1) (m :: ms)]
    simp [inLine]

theorem writeItems_inLine (level : Nat) :
    ∀ vs : List Json, inLine.writeItems level vs = compactItems vs
  | [] => by rw [writeItems, compactItems]
  | [v] => by
    rw [writeItems, compactItems, write_inLine level v]
    rfl
  | v :: w :: vs => by
    rw [writeItems, compactItems, write_inLine level v, writeItems_inLine level (w :: vs)]
    · rfl
    all_goals simp

theorem writeMembers_inLine (level : Nat) :
    ∀ ms : List (String × Json), inLine.writeMembers level ms = compactMembers ms
  | [] => by rw [writeMembers, compactMembers]
  | [(k, v)] => by
    rw [writeMembers, compactMembers, write_inLine level v]
    rfl
  | (k, v) :: m :: ms => by
    rw [writeMembers, compactMembers, write_inLine level v, writeMembers_inLine level (m :: ms)]
    · rfl
    all_goals simp

end

mutual

theorem write_overLines (level : Nat) : ∀ v : Json, overLines.write level v = prettyChars level v
  | null | bool _ | number _ | string _ | array [] | object [] => by rw [write, prettyChars]
  | array (v :: vs) => by
    rw [write, prettyChars, writeItems_overLines (level + 1) (v :: vs)]
    rfl
  | object (m :: ms) => by
    rw [write, prettyChars, writeMembers_overLines (level + 1) (m :: ms)]
    rfl

theorem writeItems_overLines (level : Nat) :
    ∀ vs : List Json, overLines.writeItems level vs = prettyItems level vs
  | [] => by rw [writeItems, prettyItems]
  | [v] => by
    rw [writeItems, prettyItems, write_overLines level v]
    rfl
  | v :: w :: vs => by
    rw [writeItems, prettyItems, write_overLines level v, writeItems_overLines level (w :: vs)]
    · rfl
    all_goals simp

theorem writeMembers_overLines (level : Nat) :
    ∀ ms : List (String × Json), overLines.writeMembers level ms = prettyMembers level ms
  | [] => by rw [writeMembers, prettyMembers]
  | [(k, v)] => by
    rw [writeMembers, prettyMembers, write_overLines level v]
    rfl
  | (k, v) :: m :: ms => by
    rw [writeMembers, prettyMembers, write_overLines level v,
      writeMembers_overLines level (m :: ms)]
    · rfl
    all_goals simp

end

end Layout

/-! ## Reading strings and words -/

/-- A word is read letter by letter. -/
theorem readWord_append {α : Type} (result : α) (word rest : List Char) :
    readWord result word (word ++ rest) = .ok (result, rest) := by
  induction word with
  | nil => cases rest <;> rfl
  | cons c cs ih =>
    rw [List.cons_append, readWord, if_pos rfl]
    exact ih

/-- A character that needs no escape is read as it is. -/
theorem readChars_plain {c : Char} (hquote : c ≠ '"') (hslash : c ≠ '\\') (hlow : ¬c.toNat < 0x20)
    (cs : List Char) : readChars (c :: cs) = consRead c (readChars cs) := by
  rw [readChars.eq_def]
  split <;> simp_all [Nat.not_lt.2]

/-- An escape by number is read as the character that it stands for. -/
theorem readChars_control {c : Char} (hlow : c.toNat < 0x20) (cs : List Char) :
    readChars ('\\' :: 'u' :: '0' :: '0' :: Text.hexDigit (c.toNat / 16) ::
      Text.hexDigit (c.toNat % 16) :: cs) = consRead c (readChars cs) := by
  have hvalue : Text.hexFrom? 0 ['0', '0', Text.hexDigit (c.toNat / 16),
      Text.hexDigit (c.toNat % 16)] = some c.toNat := by
    have hzero : Text.hexDigit? '0' = some 0 := by decide
    simp only [Text.hexFrom?, hzero, Text.hexDigit?_hexDigit (show c.toNat / 16 < 16 by omega),
      Text.hexDigit?_hexDigit (show c.toNat % 16 < 16 by omega)]
    congr 1
    omega
  have htrail : Text.isTrailingHalf c.toNat = false := by
    simp only [Text.isTrailingHalf, Bool.and_eq_false_iff, decide_eq_false_iff_not]
    omega
  have hlead : Text.isLeadingHalf c.toNat = false := by
    simp only [Text.isLeadingHalf, Bool.and_eq_false_iff, decide_eq_false_iff_not]
    omega
  rw [readChars]
  simp [hvalue, htrail, hlead]

/-- A character of a string is read as it was written. -/
theorem readChars_escapeChar (c : Char) (cs : List Char) :
    readChars (escapeChar c ++ cs) = consRead c (readChars cs) := by
  unfold escapeChar
  split
  -- the seven characters with an escape of one letter
  iterate 7 rfl
  · next hquote hslash _ _ _ _ _ =>
    split
    · next hlow => exact readChars_control hlow cs
    · next hlow => exact readChars_plain hquote hslash hlow cs

/-- A string is read as it was written. -/
theorem readString_quoted (s : String) (rest : List Char) :
    readString (s.toList.flatMap escapeChar ++ '"' :: rest) = .ok (s, rest) := by
  have hchars : ∀ cs : List Char,
      readChars (cs.flatMap escapeChar ++ '"' :: rest) = .ok (cs, rest) := by
    intro cs
    induction cs with
    | nil => rfl
    | cons c cs ih =>
      rw [List.flatMap_cons, List.append_assoc, readChars_escapeChar, ih]
      rfl
  rw [readString, hchars]
  simp

/-! ## White space -/

theorem skipBlank_append {ws : List Char} (h : ws.all isBlank = true) (cs : List Char) :
    skipBlank (ws ++ cs) = skipBlank cs := by
  rw [skipBlank, List.dropWhile_append_of_pos fun c hc => List.all_eq_true.1 h c hc]
  rfl

theorem skipBlank_cons {c : Char} (h : isBlank c = false) (cs : List Char) :
    skipBlank (c :: cs) = c :: cs := by
  rw [skipBlank, List.dropWhile_cons_of_neg (by simp [h])]

namespace Layout

variable {L : Layout} {n level : Nat} {v : Json}

/-- The text of a value starts neither with white space nor with a bracket that closes. -/
theorem exists_write_eq_cons (h : Fits n v) (L : Layout) (level : Nat) :
    ∃ c cs, L.write level v = c :: cs ∧ isBlank c = false ∧ c ≠ ']' := by
  cases h with
  | null => exact ⟨'n', _, by rw [write]; rfl, by decide, by decide⟩
  | bool _ b =>
    cases b
    · exact ⟨'f', _, by rw [write]; rfl, by decide, by decide⟩
    · exact ⟨'t', _, by rw [write]; rfl, by decide, by decide⟩
  | string _ s => exact ⟨'"', _, by rw [write]; rfl, by decide, by decide⟩
  | @array _ vs _ =>
    cases vs with
    | nil => exact ⟨'[', _, by rw [write], by decide, by decide⟩
    | cons v vs => exact ⟨'[', _, by rw [write], by decide, by decide⟩
  | @object _ ms _ _ =>
    cases ms with
    | nil => exact ⟨'{', _, by rw [write], by decide, by decide⟩
    | cons m ms => exact ⟨'{', _, by rw [write], by decide, by decide⟩

/-- White space before a value is passed over. -/
theorem skipBlank_write (h : Fits n v) (L : Layout) (level : Nat) {ws : List Char}
    (hws : ws.all isBlank = true) (rest : List Char) :
    skipBlank (ws ++ (L.write level v ++ rest)) = L.write level v ++ rest := by
  obtain ⟨c, cs, hwrite, hblank, -⟩ := exists_write_eq_cons h L level
  rw [skipBlank_append hws, hwrite, List.cons_append, skipBlank_cons hblank]

/-! ## Reading values back -/

/-- A value is read back from its text, whatever follows it. -/
def ReadsBack (L : Layout) (n : Nat) (v : Json) : Prop :=
  ∀ level fuel rest, (L.write level v).length ≤ fuel →
    readValue fuel n (L.write level v ++ rest) = .ok (v, rest)

/-- The white space before the end of an array or an object is passed over. -/
theorem skipBlank_gap (L : Layout) (level : Nat) {c : Char} (hc : isBlank c = false)
    (rest : List Char) : skipBlank (L.gap level ++ c :: rest) = c :: rest := by
  rw [skipBlank_append (L.isBlank_gap level), skipBlank_cons hc]

/-- Items start with their first one, behind white space. -/
theorem exists_writeItems_eq (L : Layout) (level : Nat) (v : Json) (vs : List Json) :
    ∃ tail, L.writeItems level (v :: vs) = L.gap level ++ (L.write level v ++ tail) := by
  cases vs with
  | nil => exact ⟨[], by rw [writeItems, List.append_nil]⟩
  | cons w vs =>
    exact ⟨',' :: L.writeItems level (w :: vs), by rw [writeItems]; simp⟩

/-- Past the white space before items there is something other than the end of the array. -/
theorem exists_skipBlank_items (L : Layout) (level : Nat) {v : Json} (h : Fits n v)
    (vs : List Json) (rest : List Char) :
    ∃ c cs, skipBlank (L.writeItems level (v :: vs) ++ rest) = c :: cs ∧ c ≠ ']' := by
  obtain ⟨tail, htail⟩ := exists_writeItems_eq L level v vs
  obtain ⟨c, cs, hwrite, -, hne⟩ := exists_write_eq_cons h L level
  refine ⟨c, cs ++ (tail ++ rest), ?_, hne⟩
  rw [htail, List.append_assoc, List.append_assoc,
    skipBlank_write h L level (L.isBlank_gap level), hwrite, List.cons_append]

/-- **Items.**  The items of an array are read back behind those that have been read. -/
theorem readItems_writeItems (v : Json) (vs : List Json)
    (hfits : ∀ w ∈ v :: vs, Fits n w) (hreads : ∀ w ∈ v :: vs, L.ReadsBack n w)
    (outer fuel : Nat) (read : List Json) (rest : List Char)
    (hfuel : (L.writeItems level (v :: vs)).length < fuel) :
    readItems fuel n read
        (skipBlank (L.writeItems level (v :: vs) ++ (L.gap outer ++ ']' :: rest))) =
      .ok (array (read.reverse ++ v :: vs), rest) := by
  induction vs generalizing v fuel read with
  | nil =>
    have hv : v ∈ [v] := List.mem_singleton_self v
    obtain ⟨fuel, rfl⟩ : ∃ k, fuel = k + 1 := ⟨fuel - 1, by omega⟩
    rw [writeItems, List.length_append] at hfuel
    rw [writeItems, List.append_assoc,
      skipBlank_write (hfits v hv) L level (L.isBlank_gap level), readItems,
      hreads v hv level fuel _ (by omega)]
    simp [bind, Except.bind, skipBlank_gap L outer (show isBlank ']' = false by decide)]
  | cons w vs ih =>
    have hv : v ∈ v :: w :: vs := List.mem_cons_self
    have htail : ∀ x ∈ w :: vs, x ∈ v :: w :: vs := fun x hx => List.mem_cons_of_mem _ hx
    obtain ⟨fuel, rfl⟩ : ∃ k, fuel = k + 1 := ⟨fuel - 1, by omega⟩
    have hitems : L.writeItems level (v :: w :: vs) =
        L.gap level ++ (L.write level v ++ ',' :: L.writeItems level (w :: vs)) := by
      rw [writeItems]
      simp
    simp only [hitems, List.length_append, List.length_cons] at hfuel
    have hrest := ih w (fun x hx => hfits x (htail x hx)) (fun x hx => hreads x (htail x hx)) fuel
      (v :: read) (by omega)
    -- what follows the comma starts with the next item, which is no bracket
    obtain ⟨c, cs, hnext, hne⟩ := exists_skipBlank_items L level
      (hfits w (htail w List.mem_cons_self)) vs (L.gap outer ++ ']' :: rest)
    rw [hitems, List.append_assoc, List.append_assoc, List.cons_append,
      skipBlank_write (hfits v hv) L level (L.isBlank_gap level), readItems,
      hreads v hv level fuel _ (by omega)]
    rw [hnext] at hrest
    simp [bind, Except.bind, skipBlank_cons (show isBlank ',' = false by decide), hnext, hne, hrest]

/-- A key is read with the colon behind it. -/
theorem readKey_quoted (key : String) (rest : List Char) :
    readKey (quoted key ++ ':' :: rest) = .ok (key, rest) := by
  rw [quoted, List.cons_append, List.append_assoc, List.singleton_append, readKey,
    readString_quoted]
  simp [bind, Except.bind, skipBlank_cons (show isBlank ':' = false by decide)]

/-- A new key comes last among the members. -/
theorem setMember_of_not_mem {key : String} (value : Json) {ms : List (String × Json)}
    (h : key ∉ ms.map Prod.fst) : setMember key value ms = ms ++ [(key, value)] := by
  induction ms with
  | nil => rfl
  | cons m ms ih =>
    rw [List.map_cons, List.mem_cons, not_or] at h
    rw [setMember, if_neg (Ne.symm h.1), ih h.2, List.cons_append]

theorem skipBlank_quoted (key : String) (rest : List Char) :
    skipBlank (quoted key ++ rest) = quoted key ++ rest :=
  skipBlank_cons (by decide) _

theorem skipBlank_gap_quoted (L : Layout) (level : Nat) (key : String) (rest : List Char) :
    skipBlank (L.gap level ++ (quoted key ++ rest)) = quoted key ++ rest := by
  rw [skipBlank_append (L.isBlank_gap level), skipBlank_quoted]

/-- Past the white space before members there is the quote of their first key. -/
theorem exists_skipBlank_members (L : Layout) (level : Nat) (m : String × Json)
    (ms : List (String × Json)) (rest : List Char) :
    ∃ cs, skipBlank (L.writeMembers level (m :: ms) ++ rest) = '"' :: cs := by
  obtain ⟨key, v⟩ := m
  obtain ⟨tail, htail⟩ : ∃ tail, L.writeMembers level ((key, v) :: ms) =
      L.gap level ++ (quoted key ++ tail) := by
    cases ms with
    | nil => exact ⟨_, by rw [writeMembers]⟩
    | cons m ms => exact ⟨_, by rw [writeMembers]; simp⟩
  rw [htail, List.append_assoc, List.append_assoc, skipBlank_gap_quoted]
  exact ⟨_, rfl⟩

/-- A text takes at least one unit of fuel. -/
theorem exists_fuel (h : Fits n v) (L : Layout) {level fuel : Nat}
    (hfuel : (L.write level v).length ≤ fuel) : ∃ k, fuel = k + 1 := by
  obtain ⟨c, cs, hwrite, -, -⟩ := exists_write_eq_cons h L level
  rw [hwrite, List.length_cons] at hfuel
  exact ⟨fuel - 1, by omega⟩

/-- White space before a value changes nothing in what is read. -/
theorem ReadsBack.behind_space (h : L.ReadsBack n v) (hfits : Fits n v) (level : Nat) {fuel : Nat}
    (hfuel : (L.write level v).length ≤ fuel) (rest : List Char) :
    readValue fuel n (L.space ++ (L.write level v ++ rest)) = .ok (v, rest) := by
  rw [← h level fuel rest hfuel]
  obtain ⟨fuel, rfl⟩ := exists_fuel hfits L hfuel
  rw [readValue, readValue, skipBlank_append L.isBlank_space]

/-- **Members.**  The members of an object are read back behind those that have been read. -/
theorem readMembers_writeMembers (key : String) (v : Json) (ms : List (String × Json))
    (hfits : ∀ x ∈ (key, v) :: ms, Fits n x.2) (hreads : ∀ x ∈ (key, v) :: ms, L.ReadsBack n x.2)
    (outer fuel : Nat) (read : List (String × Json)) (rest : List Char)
    (hkeys : (read.map Prod.fst ++ ((key, v) :: ms).map Prod.fst).Nodup)
    (hfuel : (L.writeMembers level ((key, v) :: ms)).length < fuel) :
    readMembers fuel n read
        (skipBlank (L.writeMembers level ((key, v) :: ms) ++ (L.gap outer ++ '}' :: rest))) =
      .ok (object (read ++ (key, v) :: ms), rest) := by
  have hkey : key ∉ read.map Prod.fst := by
    intro hmem
    exact (List.nodup_append.1 hkeys).2.2 key hmem key List.mem_cons_self rfl
  -- the keys differ, so each member is put behind those read
  induction ms generalizing key v fuel read with
  | nil =>
    have hv : (key, v) ∈ [(key, v)] := List.mem_singleton_self _
    obtain ⟨fuel, rfl⟩ : ∃ k, fuel = k + 1 := ⟨fuel - 1, by omega⟩
    have hmembers : L.writeMembers level [(key, v)] =
        L.gap level ++ (quoted key ++ ':' :: (L.space ++ L.write level v)) := by rw [writeMembers]
    simp only [hmembers, List.length_append, List.length_cons] at hfuel
    have hvalue := ReadsBack.behind_space (hreads _ hv) (hfits _ hv) level
      (show (L.write level v).length ≤ fuel by omega) (L.gap outer ++ '}' :: rest)
    simp only [hmembers, List.append_assoc, List.cons_append, skipBlank_gap_quoted]
    rw [readMembers, skipBlank_quoted, readKey_quoted]
    simp [bind, Except.bind, hvalue, skipBlank_gap L outer (show isBlank '}' = false by decide),
      setMember_of_not_mem v hkey]
  | cons m ms ih =>
    obtain ⟨next, w⟩ := m
    have hv : (key, v) ∈ (key, v) :: (next, w) :: ms := List.mem_cons_self
    have htail : ∀ x ∈ (next, w) :: ms, x ∈ (key, v) :: (next, w) :: ms :=
      fun x hx => List.mem_cons_of_mem _ hx
    obtain ⟨fuel, rfl⟩ : ∃ k, fuel = k + 1 := ⟨fuel - 1, by omega⟩
    have hmembers : L.writeMembers level ((key, v) :: (next, w) :: ms) =
        L.gap level ++ (quoted key ++ ':' :: (L.space ++ (L.write level v ++ ',' ::
          L.writeMembers level ((next, w) :: ms)))) := by
      rw [writeMembers]
      simp
    simp only [hmembers, List.length_append, List.length_cons] at hfuel
    have hvalue := ReadsBack.behind_space (hreads _ hv) (hfits _ hv) level
      (show (L.write level v).length ≤ fuel by omega)
    have hkeys' : ((read ++ [(key, v)]).map Prod.fst ++ ((next, w) :: ms).map Prod.fst).Nodup := by
      simpa using hkeys
    have hrest := ih next w (fun x hx => hfits x (htail x hx)) (fun x hx => hreads x (htail x hx))
      fuel (read ++ [(key, v)]) hkeys' (by omega) (by
        intro hmem
        exact (List.nodup_append.1 hkeys').2.2 next hmem next List.mem_cons_self rfl)
    obtain ⟨cs, hnext⟩ := exists_skipBlank_members L level (next, w) ms (L.gap outer ++ '}' :: rest)
    rw [hnext] at hrest
    simp only [hmembers, List.append_assoc, List.cons_append, skipBlank_gap_quoted]
    rw [readMembers, skipBlank_quoted, readKey_quoted]
    simp [bind, Except.bind, hvalue, skipBlank_cons (show isBlank ',' = false by decide), hnext,
      setMember_of_not_mem v hkey, hrest]

/-- An array is read back if its items are. -/
theorem readsBack_array {vs : List Json} (hfits : ∀ v ∈ vs, Fits n v)
    (hreads : ∀ v ∈ vs, L.ReadsBack n v) : L.ReadsBack (n + 1) (array vs) := by
  intro level fuel rest hfuel
  obtain ⟨fuel, rfl⟩ := exists_fuel (.array hfits) L hfuel
  have hopen : isBlank '[' = false := by decide
  cases vs with
  | nil =>
    rw [write, List.cons_append, readValue, skipBlank_cons hopen]
    rfl
  | cons v vs =>
    rw [write] at hfuel ⊢
    simp only [List.length_cons, List.length_append, List.length_nil] at hfuel
    obtain ⟨c, cs, hnext, hne⟩ := exists_skipBlank_items L (level + 1)
      (hfits v List.mem_cons_self) vs (L.gap level ++ ']' :: rest)
    have hitems := readItems_writeItems v vs hfits hreads level fuel [] rest
      (show (L.writeItems (level + 1) (v :: vs)).length < fuel by omega)
    rw [hnext] at hitems
    simp only [List.cons_append, List.append_assoc, List.nil_append]
    rw [readValue, skipBlank_cons hopen]
    simp [hnext, hne, hitems]

/-- An object is read back if the values of its members are. -/
theorem readsBack_object {ms : List (String × Json)} (hkeys : (ms.map Prod.fst).Nodup)
    (hfits : ∀ m ∈ ms, Fits n m.2) (hreads : ∀ m ∈ ms, L.ReadsBack n m.2) :
    L.ReadsBack (n + 1) (object ms) := by
  intro level fuel rest hfuel
  obtain ⟨fuel, rfl⟩ := exists_fuel (.object hkeys hfits) L hfuel
  have hopen : isBlank '{' = false := by decide
  cases ms with
  | nil =>
    rw [write, List.cons_append, readValue, skipBlank_cons hopen]
    rfl
  | cons m ms =>
    rw [write] at hfuel ⊢
    simp only [List.length_cons, List.length_append, List.length_nil] at hfuel
    obtain ⟨cs, hnext⟩ := exists_skipBlank_members L (level + 1) m ms (L.gap level ++ '}' :: rest)
    have hmembers := readMembers_writeMembers m.1 m.2 ms hfits hreads level fuel [] rest hkeys
      (show (L.writeMembers (level + 1) (m :: ms)).length < fuel by omega)
    rw [hnext] at hmembers
    simp only [List.cons_append, List.append_assoc, List.nil_append]
    rw [readValue, skipBlank_cons hopen]
    simp [hnext, hmembers]

/-- **Values.**  A value that keeps to the limits of the reader is read back from its text. -/
theorem readsBack (L : Layout) (h : Fits n v) : L.ReadsBack n v := by
  induction h with
  | null n =>
    intro level fuel rest hfuel
    obtain ⟨fuel, rfl⟩ := exists_fuel (.null n) L hfuel
    rw [write, readValue]
    exact readWord_append null "ull".toList rest
  | bool n b =>
    intro level fuel rest hfuel
    obtain ⟨fuel, rfl⟩ := exists_fuel (.bool n b) L hfuel
    rw [write, readValue]
    cases b
    · exact readWord_append (Json.bool false) "alse".toList rest
    · exact readWord_append (Json.bool true) "rue".toList rest
  | string n s =>
    intro level fuel rest hfuel
    obtain ⟨fuel, rfl⟩ := exists_fuel (.string n s) L hfuel
    rw [write, readValue, skipBlank_quoted, quoted, List.cons_append, List.append_assoc]
    simp [bind, Except.bind, readString_quoted]
  | array items ih => exact readsBack_array items ih
  | object keys values ih => exact readsBack_object keys values ih

/-- The text of a value is read as that value. -/
theorem readAll_write (L : Layout) (h : Fits n v) (level : Nat) :
    readAll n (L.write level v) = .ok v := by
  have hvalue := L.readsBack h level (2 * (L.write level v).length + 2) [] (by omega)
  rw [List.append_nil] at hvalue
  rw [readAll, hvalue]
  rfl

end Layout

/-! ## The two texts of a value -/

variable {n : Nat} {v : Json}

theorem ofText_ofList {cs : List Char} (h : readAll maxLevels cs = .ok v) :
    ofText (String.ofList cs) = .ok v := by
  rw [ofText, String.toList_ofList, h]

/-- The text in one line is read as the value. -/
theorem ofText_compact (h : Fits n v) (hn : n ≤ maxLevels) : ofText v.compact = .ok v := by
  refine ofText_ofList ?_
  rw [← Layout.write_inLine 0]
  exact Layout.inLine.readAll_write (h.mono hn) 0

/-- The text over several lines is read as the value. -/
theorem ofText_pretty (h : Fits n v) (hn : n ≤ maxLevels) : ofText v.pretty = .ok v := by
  refine ofText_ofList ?_
  rw [← Layout.write_overLines 0]
  exact Layout.overLines.readAll_write (h.mono hn) 0

end SchemaCatalog.Json

/-
# What the reader of JSON accepts

Every text that is written for a tree is read to the value of the tree, if it has one.  Together
with the converse a text is read exactly if the grammar and the limits of the reader allow it.
-/
import SchemaCatalog.Proofs.JsonReading

namespace SchemaCatalog.Json

/-! ## The start of a value -/

/-- A number starts with its sign or with a digit, which tells it from other values. -/
theorem IsNumber.exists_cons {cs : List Char} (h : IsNumber cs) :
    ∃ c rest, cs = c :: rest ∧ (c = '-' ∨ c.isDigit = true) := by
  cases h with
  | parts hsign hwhole =>
    obtain ⟨d, ds, rfl, hd⟩ := hwhole.exists_cons
    rcases hsign with rfl | rfl
    · exact ⟨d, _, rfl, Or.inr hd⟩
    · exact ⟨'-', _, rfl, Or.inl rfl⟩

/-- The first character of a number is no white space. -/
theorem isBlank_of_number {c : Char} (h : c = '-' ∨ c.isDigit = true) : isBlank c = false := by
  rw [Bool.eq_false_iff]
  intro hblank
  simp only [isBlank, Bool.or_eq_true, beq_iff_eq] at hblank
  rcases hblank with ((rfl | rfl) | rfl) | rfl <;> revert h <;> decide

/-- A value starts neither with white space nor with a bracket that closes. -/
theorem Writes.exists_cons {t : Tree} {cs : List Char} (h : Writes t cs) :
    ∃ c rest, cs = c :: rest ∧ isBlank c = false ∧ c ≠ ']' := by
  cases h with
  | null => exact ⟨'n', _, rfl, by decide, by decide⟩
  | bool b =>
    cases b
    · exact ⟨'f', _, rfl, by decide, by decide⟩
    · exact ⟨'t', _, rfl, by decide, by decide⟩
  | number h =>
    obtain ⟨c, rest, rfl, hc⟩ := h.exists_cons
    refine ⟨c, rest, rfl, isBlank_of_number hc, ?_⟩
    rintro rfl
    revert hc
    decide
  | string => exact ⟨'"', _, rfl, by decide, by decide⟩
  | emptyArray | array => exact ⟨'[', _, rfl, by decide, by decide⟩
  | emptyObject | object => exact ⟨'{', _, rfl, by decide, by decide⟩

/-- Skipping white space leads to the first character of a value and not beyond it. -/
theorem Writes.skipBlank_append {t : Tree} {cs ws : List Char} (h : Writes t cs) (hws : IsSpace ws)
    (rest : List Char) : skipBlank (ws ++ (cs ++ rest)) = cs ++ rest := by
  obtain ⟨c, cs', rfl, hc, -⟩ := h.exists_cons
  exact skipBlank_append_cons hws hc (cs' ++ rest)

/-! ## Values in their surroundings -/

/-- The value of a tree is read from its text, whatever stands around it. -/
def IsRead (t : Tree) (cs : List Char) : Prop :=
  ∀ n v fuel ws rest, t.value? n = some v → cs.length ≤ fuel → IsSpace ws → Ends rest →
    readValue fuel n (ws ++ (cs ++ rest)) = .ok (v, rest)

/-- The values of items are read from their text, behind those that have been read. -/
def AreItems (ts : List Tree) (cs : List Char) : Prop :=
  ∀ n vs fuel read rest, items? n ts = some vs → cs.length < fuel →
    readItems fuel n read (skipBlank (cs ++ ']' :: rest)) = .ok (array (read.reverse ++ vs), rest)

/-- The values of members are read from their text, behind those that have been read. -/
def AreMembers (ms : List (List Piece × Tree)) (cs : List Char) : Prop :=
  ∀ n vs fuel read rest, members? n read ms = some vs → cs.length < fuel →
    readMembers fuel n read (skipBlank (cs ++ '}' :: rest)) = .ok (object vs, rest)

/-- White space before a value is passed over. -/
theorem isRead_of_core {t : Tree} {cs : List Char} (h : Writes t cs)
    (hcore : ∀ n v fuel rest, t.value? n = some v → cs.length ≤ fuel + 1 → Ends rest →
      readValue (fuel + 1) n (cs ++ rest) = .ok (v, rest)) : IsRead t cs := by
  intro n v fuel ws rest hv hfuel hws hrest
  obtain ⟨c, cs', hcs, hblank, -⟩ := h.exists_cons
  cases fuel with
  | zero =>
    rw [hcs] at hfuel
    cases hfuel
  | succ fuel =>
    rw [← hcore n v fuel rest hv hfuel hrest, readValue, readValue, h.skipBlank_append hws,
      hcs, List.cons_append, skipBlank_cons hblank]

theorem isRead_null : IsRead .null "null".toList := by
  refine isRead_of_core .null fun n v fuel rest hv _ _ => ?_
  rw [Tree.value?] at hv
  cases hv
  rw [readValue]
  exact readWord_append null "ull".toList rest

theorem isRead_bool (b : Bool) : IsRead (.bool b) (if b then "true" else "false").toList := by
  refine isRead_of_core (.bool b) fun n v fuel rest hv _ _ => ?_
  rw [Tree.value?] at hv
  cases hv
  rw [readValue]
  cases b
  · exact readWord_append (bool false) "alse".toList rest
  · exact readWord_append (bool true) "rue".toList rest

/-- What starts like a number is read as one. -/
theorem readValue_number {c : Char} (hc : c = '-' ∨ c.isDigit = true) (fuel n : Nat)
    (cs : List Char) : readValue (fuel + 1) n (c :: cs) = readNumber (c :: cs) := by
  have hdispatch : (c == '-' || c.isDigit) = true := by simpa using hc
  rw [readValue, skipBlank_cons (isBlank_of_number hc)]
  split
  case h_8 heq =>
    cases heq
    rw [if_pos hdispatch]
  all_goals
    next heq =>
    cases heq
    all_goals exact absurd hc (by decide)

theorem isRead_number {cs : List Char} (h : IsNumber cs) : IsRead (.number cs) cs := by
  refine isRead_of_core (.number h) fun n v fuel rest hv _ hrest => ?_
  rw [Tree.value?, Option.ite_none_right_eq_some] at hv
  obtain ⟨hvalue, hv⟩ := hv
  cases hv
  rw [← readNumber_append h hvalue hrest]
  obtain ⟨c, cs', rfl, hc⟩ := h.exists_cons
  exact readValue_number hc fuel n (cs' ++ rest)

/-- A string is read from its quotes, with whatever pieces it is written in. -/
theorem isRead_string {ps : List Piece} (h : ∀ p ∈ ps, p.IsProper) :
    IsRead (.string ps) (quotedPieces ps) := by
  refine isRead_of_core (.string h) fun n v fuel rest hv _ _ => ?_
  rw [Tree.value?] at hv
  obtain ⟨l, hl, rfl⟩ := Option.map_eq_some_iff.1 hv
  rw [quotedPieces_append, readValue, skipBlank_cons (by decide)]
  simp only [readString_append h hl, bind, Except.bind]

/-- An array without items may hold white space. -/
theorem isRead_emptyArray {ws : List Char} (h : IsSpace ws) :
    IsRead (.array []) ('[' :: (ws ++ [']'])) := by
  refine isRead_of_core (.emptyArray h) fun n v fuel rest hv _ _ => ?_
  cases n with
  | zero =>
    rw [Tree.value?] at hv
    cases hv
  | succ n =>
    rw [Tree.value?, items?] at hv
    cases hv
    rw [List.cons_append, List.append_assoc, readValue, skipBlank_cons (by decide)]
    simp only [List.singleton_append, skipBlank_append_cons h (show isBlank ']' = false by decide)]

/-- An object without members may hold white space. -/
theorem isRead_emptyObject {ws : List Char} (h : IsSpace ws) :
    IsRead (.object []) ('{' :: (ws ++ ['}'])) := by
  refine isRead_of_core (.emptyObject h) fun n v fuel rest hv _ _ => ?_
  cases n with
  | zero =>
    rw [Tree.value?] at hv
    cases hv
  | succ n =>
    rw [Tree.value?, members?] at hv
    cases hv
    rw [List.cons_append, List.append_assoc, readValue, skipBlank_cons (by decide)]
    simp only [List.singleton_append, skipBlank_append_cons h (show isBlank '}' = false by decide)]

/-! ## Items and members -/

/-- Past the white space before items there is a value. -/
theorem WritesItems.exists_cons {ts : List Tree} {cs : List Char} (h : WritesItems ts cs)
    (rest : List Char) : ∃ c cs', skipBlank (cs ++ rest) = c :: cs' ∧ c ≠ ']' := by
  cases h with
  | last hbefore h | more hbefore h =>
    obtain ⟨c, cs', hcs, -, hne⟩ := h.exists_cons
    rw [List.append_assoc, List.append_assoc, h.skipBlank_append hbefore, hcs]
    exact ⟨c, _, rfl, hne⟩

/-- An array takes one level, so its items are read with one level less. -/
theorem isRead_array {ts : List Tree} {cs : List Char} (h : WritesItems ts cs)
    (hitems : AreItems ts cs) : IsRead (.array ts) ('[' :: (cs ++ [']'])) := by
  refine isRead_of_core (.array h) fun n v fuel rest hv hfuel _ => ?_
  cases n with
  | zero =>
    rw [Tree.value?] at hv
    cases hv
  | succ n =>
    rw [Tree.value?] at hv
    obtain ⟨vs, hvs, rfl⟩ := Option.map_eq_some_iff.1 hv
    have hread := hitems n vs fuel [] rest hvs (by simp at hfuel; omega)
    obtain ⟨c, cs', hskip, hne⟩ := h.exists_cons (']' :: rest)
    rw [List.cons_append, List.append_assoc, readValue, skipBlank_cons (by decide)]
    simp only [List.singleton_append]
    rw [hskip] at hread ⊢
    split
    · next heq =>
      cases heq
      exact absurd rfl hne
    · next heq => cases heq
    · exact hread

/-- Past the white space before members there is a key. -/
theorem WritesMembers.exists_cons {ms : List (List Piece × Tree)} {cs : List Char}
    (h : WritesMembers ms cs) (rest : List Char) :
    ∃ cs', skipBlank (cs ++ rest) = '"' :: cs' := by
  cases h with
  | last houter | more houter =>
    rw [List.append_assoc, List.append_assoc, quotedPieces_append,
      skipBlank_append_cons houter (by decide)]
    exact ⟨_, rfl⟩

/-- An object takes one level, so its members are read with one level less. -/
theorem isRead_object {ms : List (List Piece × Tree)} {cs : List Char} (h : WritesMembers ms cs)
    (hmembers : AreMembers ms cs) : IsRead (.object ms) ('{' :: (cs ++ ['}'])) := by
  refine isRead_of_core (.object h) fun n v fuel rest hv hfuel _ => ?_
  cases n with
  | zero =>
    rw [Tree.value?] at hv
    cases hv
  | succ n =>
    rw [Tree.value?] at hv
    obtain ⟨vs, hvs, rfl⟩ := Option.map_eq_some_iff.1 hv
    have hread := hmembers n vs fuel [] rest hvs (by simp at hfuel; omega)
    obtain ⟨cs', hskip⟩ := h.exists_cons ('}' :: rest)
    rw [List.cons_append, List.append_assoc, readValue, skipBlank_cons (by decide)]
    simp only [List.singleton_append]
    rw [hskip] at hread ⊢
    exact hread

/-- The last item is read up to the bracket that closes the array. -/
theorem areItems_last {t : Tree} {before cs behind : List Char} (hbefore : IsSpace before)
    (h : Writes t cs) (hread : IsRead t cs) (hbehind : IsSpace behind) :
    AreItems [t] (before ++ (cs ++ behind)) := by
  intro n vs fuel read rest hvs hfuel
  cases fuel with
  | zero => cases hfuel
  | succ fuel =>
    rw [items?_singleton] at hvs
    obtain ⟨v, hv, rfl⟩ := Option.map_eq_some_iff.1 hvs
    have hvalue := hread n v fuel [] (behind ++ ']' :: rest) hv
      (by simp only [List.length_append] at hfuel; omega) isSpace_nil
      (ends_of_isSpace hbehind (ends_cons (Or.inr (Or.inl rfl)) rest))
    rw [List.append_assoc, List.append_assoc, h.skipBlank_append hbefore, readItems]
    rw [List.nil_append] at hvalue
    simp only [hvalue, bind, Except.bind,
      skipBlank_append_cons hbehind (show isBlank ']' = false by decide), List.reverse_cons]

/-- An item is read up to the comma, and the others behind it. -/
theorem areItems_more {t : Tree} {ts : List Tree} {before cs behind others : List Char}
    (hbefore : IsSpace before) (h : Writes t cs) (hread : IsRead t cs) (hbehind : IsSpace behind)
    (hothers : WritesItems ts others) (hitems : AreItems ts others) :
    AreItems (t :: ts) (before ++ (cs ++ (behind ++ ',' :: others))) := by
  intro n vs fuel read rest hvs hfuel
  cases fuel with
  | zero => cases hfuel
  | succ fuel =>
    rw [items?] at hvs
    obtain ⟨v, hv, hvs⟩ := Option.bind_eq_some_iff.1 hvs
    obtain ⟨vs', hvs', rfl⟩ := Option.map_eq_some_iff.1 hvs
    simp only [List.length_append, List.length_cons] at hfuel
    have hvalue := hread n v fuel [] (behind ++ ',' :: (others ++ ']' :: rest)) hv (by omega)
      isSpace_nil (ends_of_isSpace hbehind (ends_cons (Or.inl rfl) _))
    have hrest := hitems n vs' fuel (v :: read) rest hvs' (by omega)
    obtain ⟨c, cs', hskip, hne⟩ := hothers.exists_cons (']' :: rest)
    rw [List.append_assoc, List.append_assoc, List.append_assoc, List.cons_append,
      h.skipBlank_append hbefore, readItems]
    rw [List.nil_append] at hvalue
    simp only [hvalue, bind, Except.bind,
      skipBlank_append_cons hbehind (show isBlank ',' = false by decide)]
    rw [hskip] at hrest ⊢
    split
    · next heq =>
      cases heq
      exact absurd rfl hne
    · rw [hrest, List.reverse_cons, List.append_assoc]
      rfl

/-- Skipping white space leads to the quote that opens a key. -/
theorem skipBlank_quotedPieces {ws : List Char} (hws : IsSpace ws) (ps : List Piece)
    (rest : List Char) :
    skipBlank (ws ++ (quotedPieces ps ++ rest)) = quotedPieces ps ++ rest := by
  rw [quotedPieces_append, skipBlank_append_cons hws (by decide)]

/-- The last member is read up to the brace that closes the object. -/
theorem areMembers_last {ps : List Piece} {t : Tree} {outer inner before cs behind : List Char}
    (houter : IsSpace outer) (hps : ∀ p ∈ ps, p.IsProper) (hinner : IsSpace inner)
    (hbefore : IsSpace before) (hread : IsRead t cs) (hbehind : IsSpace behind) :
    AreMembers [(ps, t)]
      (outer ++ (quotedPieces ps ++ (inner ++ ':' :: (before ++ (cs ++ behind))))) := by
  intro n vs fuel read rest hvs hfuel
  cases fuel with
  | zero => cases hfuel
  | succ fuel =>
    rw [members?] at hvs
    obtain ⟨l, hl, hvs⟩ := Option.bind_eq_some_iff.1 hvs
    obtain ⟨v, hv, hvs⟩ := Option.bind_eq_some_iff.1 hvs
    rw [members?] at hvs
    cases hvs
    simp only [List.length_append, List.length_cons] at hfuel
    have hvalue := hread n v fuel before (behind ++ '}' :: rest) hv (by omega) hbefore
      (ends_of_isSpace hbehind (ends_cons (Or.inr (Or.inr rfl)) rest))
    have hkey := readKey_append hps hl hinner (before ++ (cs ++ (behind ++ '}' :: rest)))
    have hagain := skipBlank_quotedPieces isSpace_nil ps
      (inner ++ ':' :: (before ++ (cs ++ (behind ++ '}' :: rest))))
    simp only [List.append_assoc, List.cons_append] at hkey hagain ⊢
    rw [skipBlank_quotedPieces houter, readMembers]
    rw [List.nil_append] at hagain
    simp only [hagain, hkey, hvalue, bind, Except.bind,
      skipBlank_append_cons hbehind (show isBlank '}' = false by decide)]

/-- A member is read up to the comma and put among those that were read, and then the others
are. -/
theorem areMembers_more {ps : List Piece} {t : Tree} {ms : List (List Piece × Tree)}
    {outer inner before cs behind others : List Char} (houter : IsSpace outer)
    (hps : ∀ p ∈ ps, p.IsProper) (hinner : IsSpace inner) (hbefore : IsSpace before)
    (hread : IsRead t cs) (hbehind : IsSpace behind) (hothers : WritesMembers ms others)
    (hmembers : AreMembers ms others) :
    AreMembers ((ps, t) :: ms) (outer ++ (quotedPieces ps ++
      (inner ++ ':' :: (before ++ (cs ++ (behind ++ ',' :: others)))))) := by
  intro n vs fuel read rest hvs hfuel
  cases fuel with
  | zero => cases hfuel
  | succ fuel =>
    rw [members?] at hvs
    obtain ⟨l, hl, hvs⟩ := Option.bind_eq_some_iff.1 hvs
    obtain ⟨v, hv, hvs⟩ := Option.bind_eq_some_iff.1 hvs
    simp only [List.length_append, List.length_cons] at hfuel
    have hvalue := hread n v fuel before (behind ++ ',' :: (others ++ '}' :: rest)) hv (by omega)
      hbefore (ends_of_isSpace hbehind (ends_cons (Or.inl rfl) _))
    have hkey := readKey_append hps hl hinner
      (before ++ (cs ++ (behind ++ ',' :: (others ++ '}' :: rest))))
    have hagain := skipBlank_quotedPieces isSpace_nil ps
      (inner ++ ':' :: (before ++ (cs ++ (behind ++ ',' :: (others ++ '}' :: rest)))))
    have hrest := hmembers n vs fuel _ rest hvs (by omega)
    obtain ⟨cs', hskip⟩ := hothers.exists_cons ('}' :: rest)
    simp only [List.append_assoc, List.cons_append] at hkey hagain ⊢
    rw [skipBlank_quotedPieces houter, readMembers]
    rw [List.nil_append] at hagain
    rw [hskip] at hrest
    simp only [hagain, hkey, hvalue, bind, Except.bind,
      skipBlank_append_cons hbehind (show isBlank ',' = false by decide), hskip]
    exact hrest

mutual

/-- **Values.**  The value of a tree is read from each of its texts. -/
theorem Writes.isRead {t : Tree} {cs : List Char} : Writes t cs → IsRead t cs
  | .null => isRead_null
  | .bool b => isRead_bool b
  | .number h => isRead_number h
  | .string h => isRead_string h
  | .emptyArray h => isRead_emptyArray h
  | .array h => isRead_array h h.areItems
  | .emptyObject h => isRead_emptyObject h
  | .object h => isRead_object h h.areMembers

/-- Items are read from whatever they are written as. -/
theorem WritesItems.areItems {ts : List Tree} {cs : List Char} :
    WritesItems ts cs → AreItems ts cs
  | .last hbefore h hbehind => areItems_last hbefore h h.isRead hbehind
  | .more hbefore h hbehind hothers =>
    areItems_more hbefore h h.isRead hbehind hothers hothers.areItems

/-- Members are read from whatever they are written as. -/
theorem WritesMembers.areMembers {ms : List (List Piece × Tree)} {cs : List Char} :
    WritesMembers ms cs → AreMembers ms cs
  | .last houter hps hinner hbefore h hbehind =>
    areMembers_last houter hps hinner hbefore h.isRead hbehind
  | .more houter hps hinner hbefore h hbehind hothers =>
    areMembers_more houter hps hinner hbefore h.isRead hbehind hothers hothers.areMembers

end

/-! ## Texts -/

/-- Skipping white space leaves nothing of a text exactly if it is nothing else. -/
theorem skipBlank_eq_nil_iff {cs : List Char} : skipBlank cs = [] ↔ IsSpace cs := by
  constructor
  · intro h
    obtain ⟨ws, hws, hcs⟩ := exists_isSpace_append cs
    rw [hcs, h, List.append_nil]
    exact hws
  · intro h
    rw [← List.append_nil cs, skipBlank_append h]
    rfl

/-- A whole text is read if a value is read from it that only white space follows. -/
theorem readAll_eq_ok_iff {levels : Nat} {cs : List Char} {v : Json} :
    readAll levels cs = .ok v ↔
      ∃ rest, readValue (2 * cs.length + 2) levels cs = .ok (v, rest) ∧ IsSpace rest := by
  rw [readAll]
  constructor
  · intro h
    obtain ⟨⟨w, rest⟩, hread, h⟩ := exists_of_bind h
    simp only at h
    split at h
    · next hblank =>
      cases h
      exact ⟨rest, hread, skipBlank_eq_nil_iff.1 hblank⟩
    · cases h
  · rintro ⟨rest, hread, hspace⟩
    simp only [hread, bind, Except.bind, skipBlank_eq_nil_iff.2 hspace]

/-- **Reading.**  A text is read to a value exactly if it is written for a tree that has the value
within the limits of the reader. -/
theorem ofText_eq_ok_iff {text : String} {v : Json} :
    ofText text = .ok v ↔ ∃ t : Tree, t.IsTextOf text ∧ t.value? maxLevels = some v := by
  have hok : ofText text = .ok v ↔ readAll maxLevels text.toList = .ok v := by
    rw [ofText]
    split <;> simp_all
  rw [hok, readAll_eq_ok_iff]
  constructor
  · rintro ⟨rest, hread, hrest⟩
    obtain ⟨before, t, cs, hbefore, htext, hcs, hv⟩ := (reads_all _).1 _ _ _ _ hread
    exact ⟨t, ⟨before, cs, rest, htext, hbefore, hcs, hrest⟩, hv⟩
  · rintro ⟨t, ⟨before, cs, behind, htext, hbefore, hcs, hbehind⟩, hv⟩
    have hends : Ends behind := by
      rw [← List.append_nil behind]
      exact ends_of_isSpace hbehind ends_nil
    refine ⟨behind, ?_, hbehind⟩
    rw [htext]
    refine hcs.isRead _ _ _ before behind hv ?_ hbefore hends
    simp only [List.length_append]
    omega

end SchemaCatalog.Json

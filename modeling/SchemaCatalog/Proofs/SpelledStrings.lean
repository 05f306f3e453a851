/-
# How strings are spelled

Whatever the characters of a text are, between its quotes it is scanned as one string:
no quote inside ends it, and no escape in it is wrong.
-/
import SchemaCatalog.Fragment.Printer
import SchemaCatalog.Proofs.Spelling

namespace SchemaCatalog.Document

open Lexeme (Kind)
open Fragment (escapeChar fourDigits isPlain spaces blockLine isBlockText quotedChars quoted)

/-! ## Quoted strings -/

/-- The state between two characters of a quoted string without a problem. -/
def ScanState.inQuotes : ScanState := .quoted .plain none

/-- The value of a digit is below ten, in the hexadecimal system too. -/
theorem hexDigit?_of_isDigit {c : Char} (h : c.isDigit = true) :
    ∃ d, Text.hexDigit? c = some d ∧ d < 10 := by
  simp only [Char.isDigit, Bool.and_eq_true, decide_eq_true_eq] at h
  refine ⟨c.toNat - '0'.toNat, if_pos h, ?_⟩
  have hle : c.toNat ≤ '9'.toNat := h.2
  have h9 : '9'.toNat = 57 := rfl
  have h0 : '0'.toNat = 48 := rfl
  omega

/-- A character that is neither a quote nor a backslash nor the end of a line changes
nothing. -/
theorem next_inQuotes {c : Char} (hq : c ≠ '"') (hb : c ≠ '\\') (hn : isLineEnd c = false) :
    ScanState.inQuotes.next c = some .inQuotes := by
  simp [ScanState.inQuotes, ScanState.next, Quoted.next, Quoted.nextPlain, hq, hb, hn]

theorem walk_inQuotes_digits {cs : List Char} (h : ∀ c ∈ cs, c.isDigit = true) :
    ScanState.inQuotes.walk cs = some .inQuotes := by
  refine ScanState.walk_of_forall fun c hc => ?_
  have hdigit := h c hc
  have hline : isLineEnd c = false := by
    simp [isLineEnd, ne_of_test hdigit (by decide : Char.isDigit '\n' = false),
      ne_of_test hdigit (by decide : Char.isDigit '\r' = false)]
  exact next_inQuotes (ne_of_test hdigit (by decide)) (ne_of_test hdigit (by decide)) hline

/-- An escape with four decimal digits is no half of a pair. -/
theorem walk_unicode {a b c d : Char} (ha : a.isDigit = true) (hb : b.isDigit = true)
    (hc : c.isDigit = true) (hd : d.isDigit = true) :
    (ScanState.quoted .unicode none).walk [a, b, c, d] = some .inQuotes := by
  obtain ⟨m, hm, hm'⟩ := hexDigit?_of_isDigit ha
  obtain ⟨n, hn, hn'⟩ := hexDigit?_of_isDigit hb
  obtain ⟨p, hp, hp'⟩ := hexDigit?_of_isDigit hc
  obtain ⟨q, hq, hq'⟩ := hexDigit?_of_isDigit hd
  have h₁ : (ScanState.quoted .unicode none).next a = some (.quoted (.digits 1 m) none) := by
    simp [ScanState.next, Quoted.next, hm, ne_of_test ha (by decide : Char.isDigit '{' = false),
      ne_of_test ha (by decide : Char.isDigit '"' = false)]
  have h₂ : (ScanState.quoted (.digits 1 m) none).next b =
      some (.quoted (.digits 2 (16 * m + n)) none) := by
    simp [ScanState.next, Quoted.next, hn, ne_of_test hb (by decide : Char.isDigit '"' = false)]
  have h₃ : (ScanState.quoted (.digits 2 (16 * m + n)) none).next c =
      some (.quoted (.digits 3 (16 * (16 * m + n) + p)) none) := by
    simp [ScanState.next, Quoted.next, hp, ne_of_test hc (by decide : Char.isDigit '"' = false)]
  -- with digits below ten in each place, the unit is less than the first half of a pair
  have hlead : Text.isLeadingHalf (16 * (16 * (16 * m + n) + p) + q) = false := by
    simp only [Text.isLeadingHalf, Bool.and_eq_false_iff, decide_eq_false_iff_not]
    omega
  have htrail : Text.isTrailingHalf (16 * (16 * (16 * m + n) + p) + q) = false := by
    simp only [Text.isTrailingHalf, Bool.and_eq_false_iff, decide_eq_false_iff_not]
    omega
  have h₄ : (ScanState.quoted (.digits 3 (16 * (16 * m + n) + p)) none).next d =
      some .inQuotes := by
    simp [ScanState.next, Quoted.next, Quoted.afterUnit, hq, hlead, htrail, ScanState.inQuotes,
      ne_of_test hd (by decide : Char.isDigit '"' = false)]
  rw [ScanState.walk_cons_of_next h₁, ScanState.walk_cons_of_next h₂,
    ScanState.walk_cons_of_next h₃, ScanState.walk_cons_of_next h₄, ScanState.walk_nil]

/-- A number with at least four digits begins with four of them. -/
theorem fourDigits_eq (n : Nat) : ∃ a b c d more, fourDigits n = a :: b :: c :: d :: more ∧
    ∀ x ∈ fourDigits n, x.isDigit = true := by
  have hall : ∀ x ∈ fourDigits n, x.isDigit = true := by
    intro x hx
    rcases List.mem_append.1 hx with hx | hx
    · rw [List.eq_of_mem_replicate hx]
      rfl
    · exact Nat.isDigit_of_mem_toDigits (by decide) (by decide) hx
  have hlength : 4 ≤ (fourDigits n).length := by
    rw [fourDigits, List.length_append, List.length_replicate]
    omega
  match h : fourDigits n, hlength with
  | a :: b :: c :: d :: more, _ => exact ⟨a, b, c, d, more, rfl, h ▸ hall⟩

/-- An escaped character leads back between two characters. -/
theorem walk_escapeChar (c : Char) : ScanState.inQuotes.walk (escapeChar c) = some .inQuotes := by
  unfold escapeChar
  split
  · rfl
  · rfl
  · rfl
  · rfl
  · rfl
  · next hr hn ht hq hb =>
    split
    · next hplain =>
      have hline : isLineEnd c = false := by
        simp only [isLineEnd, Bool.or_eq_false_iff, beq_eq_false_iff_ne]
        exact ⟨hn, hr⟩
      rw [ScanState.walk_cons_of_next (next_inQuotes hq hb hline), ScanState.walk_nil]
    · -- the first four digits complete the escape; any further ones are plain characters
      obtain ⟨a, b, c', d, more, heq, hall⟩ := fourDigits_eq c.toNat
      rw [heq] at hall
      have hfour := walk_unicode (hall a (by simp)) (hall b (by simp)) (hall c' (by simp))
        (hall d (by simp))
      have hmore : ScanState.inQuotes.walk more = some .inQuotes :=
        walk_inQuotes_digits fun x hx => hall x (by simp [hx])
      have hescape : ScanState.inQuotes.next '\\' = some (.quoted .escape none) := rfl
      have hu : (ScanState.quoted .escape none).next 'u' = some (.quoted .unicode none) := rfl
      rw [heq, ScanState.walk_cons_of_next hescape, ScanState.walk_cons_of_next hu]
      exact (ScanState.walk_append hfour more).trans hmore

theorem walk_escapedChars (cs : List Char) :
    ScanState.inQuotes.walk (cs.flatMap escapeChar) = some .inQuotes := by
  induction cs with
  | nil => rfl
  | cons c cs ih =>
    rw [List.flatMap_cons, ScanState.walk_append (walk_escapeChar c)]
    exact ih

/-- What is written for a character begins neither with a quote nor with the end of a
line. -/
theorem escapeChar_eq_cons (c : Char) :
    ∃ d ds, escapeChar c = d :: ds ∧ d ≠ '"' ∧ isLineEnd d = false := by
  unfold escapeChar
  split
  case h_6 hr hn ht hq hb =>
    split
    · have hline : isLineEnd c = false := by
        simp only [isLineEnd, Bool.or_eq_false_iff, beq_eq_false_iff_ne]
        exact ⟨hn, hr⟩
      exact ⟨c, [], rfl, hq, hline⟩
    · exact ⟨'\\', _, rfl, by decide, by decide⟩
  all_goals exact ⟨'\\', _, rfl, by decide, by decide⟩

/-- Behind the opening quote such a character is read as between two others. -/
theorem next_quote {c : Char} (hq : c ≠ '"') (hn : isLineEnd c = false) :
    ScanState.quote.next c = ScanState.inQuotes.next c := by
  by_cases hb : c = '\\'
  · subst hb
    rfl
  · rw [next_inQuotes hq hb hn]
    simp [ScanState.next, ScanState.inQuotes, hq, hb]

/-- A string that ends where it is closed spells itself, whatever follows. -/
theorem spellsAlone_closed {cs : List Char} (h : ScanState.quote.walk cs = some (.closed none)) :
    SpellsAlone ('"' :: cs) [.token (.string (String.ofList ('"' :: cs)))] := by
  intro rest
  have hfinish : ScanState.finish (.closed none) ('"' :: cs) =
      .token (.string (String.ofList ('"' :: cs))) := rfl
  exact kindsIn_lexeme '"' cs (.closed none) h (fun _ _ => rfl) hfinish (by rintro ⟨⟩)

/-- A quoted string spells itself. -/
theorem spells_quotedString (cs : List Char) :
    Spells ('"' :: (cs.flatMap escapeChar ++ ['"']))
      [.token (.string (String.ofList ('"' :: (cs.flatMap escapeChar ++ ['"']))))] := by
  intro rest hrest
  cases cs with
  | nil =>
    refine kindsIn_lexeme '"' ['"'] .emptyString rfl (fun d hd => ?_) rfl (by simp)
    exact if_neg (by simpa using (break_facts (hrest d hd)).2.2.2.2.2)
  | cons c cs =>
    -- behind the opening quote the empty string is still possible, so the first step differs
    have hwalk : ScanState.quote.walk ((c :: cs).flatMap escapeChar ++ ['"']) =
        some (.closed none) := by
      obtain ⟨d, ds, hd, hq, hn⟩ := escapeChar_eq_cons c
      have hall := walk_escapedChars (c :: cs)
      have hfirst : ScanState.quote.walk ((c :: cs).flatMap escapeChar) =
          ScanState.inQuotes.walk ((c :: cs).flatMap escapeChar) := by
        rw [List.flatMap_cons, hd, List.cons_append, ScanState.walk_cons, ScanState.walk_cons,
          next_quote hq hn]
      rw [ScanState.walk_append (hfirst.trans hall)]
      rfl
    exact spellsAlone_closed hwalk rest

/-! ## Block strings -/

/-- Any character but a quote leads behind a run of backslashes or back to the plain
state. -/
theorem next_block (b : Block) {c : Char} (hc : c ≠ '"') :
    (ScanState.block b).next c = some (.block .escape) ∨
      (ScanState.block b).next c = some (.block .plain) := by
  have hne : (c == '"') = false := by simpa using hc
  by_cases hb : c = '\\'
  · subst hb
    exact Or.inl (by cases b <;> rfl)
  · have hbe : (c == '\\') = false := by simpa using hb
    exact Or.inr (by cases b <;> simp [ScanState.next, Block.next, Block.nextPlain, hne, hbe])

/-- A line feed leads back to the plain state. -/
theorem next_block_feed (b : Block) : (ScanState.block b).next '\n' = some (.block .plain) := by
  cases b <;> rfl

/-- A backslash leads behind a run of backslashes. -/
theorem next_block_backslash (b : Block) :
    (ScanState.block b).next '\\' = some (.block .escape) := by
  cases b <;> rfl

theorem walk_block_spaces (n : Nat) :
    (ScanState.block .plain).walk (spaces n) = some (.block .plain) := by
  refine ScanState.walk_of_forall fun c hc => ?_
  rw [List.eq_of_mem_replicate hc]
  rfl

/-- No quotes that may begin the end of a block are followed by those that complete it. -/
def Block.IsOpen (b : Block) (cs : List Char) : Prop :=
  (b = .oneQuote → ¬['"', '"'] <+: cs) ∧ (b = .twoQuotes → ¬['"'] <+: cs)

theorem Block.isOpen_of_ne {b : Block} {cs : List Char} (h₁ : b ≠ .oneQuote)
    (h₂ : b ≠ .twoQuotes) : b.IsOpen cs :=
  ⟨fun h => absurd h h₁, fun h => absurd h h₂⟩

/-- A character that no triple quote begins with leaves a block open. -/
theorem exists_next_block {b : Block} {c : Char} {cs : List Char} (h : b.IsOpen (c :: cs))
    (htriple : ¬['"', '"', '"'] <+: c :: cs) :
    ∃ b' : Block, (ScanState.block b).next c = some (.block b') ∧ b'.IsOpen cs := by
  by_cases hc : c = '"'
  · subst hc
    have hone : Block.oneQuote.IsOpen cs :=
      ⟨fun _ hpre => htriple (by simpa using hpre), fun h => by cases h⟩
    cases b with
    | plain => exact ⟨.oneQuote, rfl, hone⟩
    | oneQuote =>
      have htwo : Block.twoQuotes.IsOpen cs :=
        ⟨fun h => (by cases h), fun _ hpre => h.1 rfl (by simpa using hpre)⟩
      exact ⟨.twoQuotes, rfl, htwo⟩
    | twoQuotes => exact absurd (by simp) (h.2 rfl)
    | escape => exact ⟨.escapedOne, rfl, Block.isOpen_of_ne (by simp) (by simp)⟩
    | escapedOne => exact ⟨.escapedTwo, rfl, Block.isOpen_of_ne (by simp) (by simp)⟩
    | escapedTwo => exact ⟨.plain, rfl, Block.isOpen_of_ne (by simp) (by simp)⟩
  · rcases next_block b hc with hn | hn
    · exact ⟨.escape, hn, Block.isOpen_of_ne (by simp) (by simp)⟩
    · exact ⟨.plain, hn, Block.isOpen_of_ne (by simp) (by simp)⟩

/-- A line whose triple quotes are escaped does not end the block that it stands in. -/
theorem exists_walk_escapeTripleQuotes (line : List Char) {b : Block} (h : b.IsOpen line) :
    ∃ b' : Block, (ScanState.block b).walk (Text.escapeTripleQuotes line) =
      some (.block b') := by
  induction line using Text.escapeTripleQuotes.induct generalizing b with
  | case1 cs ih =>
    -- the backslash in front makes the three quotes harmless, and they lead to a plain state
    obtain ⟨b', hb'⟩ := ih (b := .plain) (Block.isOpen_of_ne (by simp) (by simp))
    refine ⟨b', ?_⟩
    rw [Text.escapeTripleQuotes, ScanState.walk_cons_of_next (next_block_backslash b)]
    exact hb'
  | case2 c cs hne ih =>
    have htriple : ¬['"', '"', '"'] <+: c :: cs := by
      rintro ⟨rest, hrest⟩
      cases hrest
      exact hne rest rfl rfl
    -- a quote may be the first of a pair, so what is open depends on what is left
    obtain ⟨b₁, hnext, hb₁⟩ := exists_next_block h htriple
    obtain ⟨b', hb'⟩ := ih hb₁
    refine ⟨b', ?_⟩
    rw [Text.escapeTripleQuotes, ScanState.walk_cons_of_next hnext]
    · exact hb'
    · exact hne
  | case3 => exact ⟨b, rfl⟩

/-- Each line of a block string leads back to the start of a line. -/
theorem walk_blockLine (indent : Nat) (line : List Char) :
    (ScanState.block .plain).walk (blockLine indent line) = some (.block .plain) := by
  unfold blockLine
  split
  · rfl
  · obtain ⟨b, hb⟩ := exists_walk_escapeTripleQuotes line (b := .plain)
      (Block.isOpen_of_ne (by simp) (by simp))
    rw [List.append_assoc, ScanState.walk_append (walk_block_spaces (indent + 2)),
      ScanState.walk_append hb, ScanState.walk_cons_of_next (next_block_feed b),
      ScanState.walk_nil]

theorem walk_blockLines (indent : Nat) (lines : List (List Char)) :
    (ScanState.block .plain).walk (lines.flatMap (blockLine indent)) = some (.block .plain) := by
  induction lines with
  | nil => rfl
  | cons line lines ih =>
    rw [List.flatMap_cons, ScanState.walk_append (walk_blockLine indent line)]
    exact ih

/-! ## Texts in quotes -/

/-- **Strings.**  A text in quotes is scanned as one string, whatever it says. -/
theorem spells_quoted (indent : Nat) (s : String) :
    Spells (quoted indent s).toList [.token (.string (quoted indent s))] := by
  rw [quoted, String.toList_ofList]
  unfold quotedChars
  split
  · -- three quotes and a line feed open the block, its lines keep it open, three quotes end it
    have hopen : ScanState.quote.walk "\"\"\n".toList = some (.block .plain) := rfl
    have hwalk : ScanState.quote.walk ("\"\"\n".toList ++
        (((Text.feedLines s.toList).flatMap (blockLine indent) ++ spaces indent) ++
          "\"\"\"".toList)) = some (.closed none) := by
      rw [ScanState.walk_append hopen,
        ScanState.walk_append ((ScanState.walk_append (walk_blockLines indent _) _).trans
          (walk_block_spaces indent))]
      rfl
    exact (spellsAlone_closed hwalk).spells
  · exact spells_quotedString s.toList

end SchemaCatalog.Document

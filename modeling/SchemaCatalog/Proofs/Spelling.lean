/-
# How lexemes of a document are spelled

A text that is put together from the spellings of lexemes is scanned into these lexemes,
if none of them runs into the next.  It is enough that a name, a number or a string is
followed by white space, a comma or a mark.
-/
import Mathlib.Data.List.Forall2
import SchemaCatalog.Document.Grammar
import SchemaCatalog.Proofs.Feeding

namespace SchemaCatalog

open Lexeme (Kind)

/-! ## Walking through a lexeme -/

namespace Scanner

variable (S : Scanner)

/-- The state after more characters of a lexeme, if none of them ends it. -/
def walk (st : S.State) : List Char → Option S.State
  | [] => some st
  | c :: cs => (S.next st c).bind fun st' => walk st' cs

@[simp] theorem walk_nil (st : S.State) : S.walk st [] = some st := rfl

/-- A walk goes on from where the first character leads. -/
theorem walk_cons (st : S.State) (c : Char) (cs : List Char) :
    S.walk st (c :: cs) = (S.next st c).bind fun st' => S.walk st' cs := rfl

/-- A walk through two texts goes on where the walk through the first ends. -/
theorem walk_append {st st' : S.State} {cs : List Char} (h : S.walk st cs = some st')
    (ds : List Char) : S.walk st (cs ++ ds) = S.walk st' ds := by
  induction cs generalizing st with
  | nil =>
    cases h
    rfl
  | cons c cs ih =>
    obtain ⟨st₁, hc, hcs⟩ := Option.bind_eq_some_iff.1 h
    rw [List.cons_append, walk_cons, hc, Option.bind_some]
    exact ih hcs

/-- A character that a lexeme takes belongs to it. -/
theorem scanFrom_cons_of_next {st st' : S.State} {c : Char} (h : S.next st c = some st')
    (read cs : List Char) : S.scanFrom st read (c :: cs) = S.scanFrom st' (c :: read) cs := by
  rw [scanFrom, h]

/-- A character that a lexeme does not take ends it, and begins the next. -/
theorem scanFrom_cons_of_end {st : S.State} {c : Char} (h : S.next st c = none)
    (read cs : List Char) :
    S.scanFrom st read (c :: cs) = S.close st read :: S.scan (c :: cs) := by
  rw [scanFrom, h]
  rfl

/-- The characters of a lexeme lead to the state that its states lead to. -/
theorem scanFrom_walk {st st' : S.State} {cs : List Char} (h : S.walk st cs = some st')
    (read rest : List Char) :
    S.scanFrom st read (cs ++ rest) = S.scanFrom st' (cs.reverse ++ read) rest := by
  induction cs generalizing st read with
  | nil =>
    cases h
    rfl
  | cons c cs ih =>
    obtain ⟨st₁, hc, hcs⟩ := Option.bind_eq_some_iff.1 h
    rw [List.cons_append, S.scanFrom_cons_of_next hc, ih hcs, List.reverse_cons,
      List.append_assoc, List.singleton_append]

/-- A lexeme reaches as far as its states do. -/
theorem scanFrom_append {st st' : S.State} {cs rest : List Char} (h : S.walk st cs = some st')
    (hrest : ∀ c ∈ rest.head?, S.next st' c = none) (read : List Char) :
    S.scanFrom st read (cs ++ rest) = S.close st' (cs.reverse ++ read) :: S.scan rest := by
  rw [S.scanFrom_walk h]
  cases rest with
  | nil => rfl
  | cons c rest => exact S.scanFrom_cons_of_end (hrest c rfl) _ rest

/-- A lexeme at the head of a text is scanned first. -/
theorem scan_append {c : Char} {st : S.State} {cs rest : List Char}
    (h : S.walk (S.start c) cs = some st) (hrest : ∀ c ∈ rest.head?, S.next st c = none) :
    S.scan (c :: cs ++ rest) = ⟨c :: cs, S.finish st (c :: cs)⟩ :: S.scan rest := by
  rw [List.cons_append, scan, S.scanFrom_append h hrest]
  simp [close]

end Scanner

namespace Document

/-! ## Texts and what they spell -/

/-- Whether a character ends a name, a number or a string that stands before it. -/
def isBreak (c : Char) : Bool := isBlank c || c == ',' || (Mark.ofChar? c).isSome

/-- Whether a text, if it is not empty, begins with such a character. -/
def Breaks (cs : List Char) : Prop := ∀ c ∈ cs.head?, isBreak c = true

/-- The kinds of the lexemes of a text. -/
def kindsIn (cs : List Char) : List Kind := kindsOf (scan cs)

/-- A text spells lexemes of some kinds, if it is followed by a break. -/
def Spells (cs : List Char) (ks : List Kind) : Prop :=
  ∀ rest, Breaks rest → kindsIn (cs ++ rest) = ks ++ kindsIn rest

/-- A text spells lexemes of some kinds, whatever follows it. -/
def SpellsAlone (cs : List Char) (ks : List Kind) : Prop :=
  ∀ rest, kindsIn (cs ++ rest) = ks ++ kindsIn rest

variable {as bs cs : List Char} {ks ls : List Kind}

theorem breaks_nil : Breaks [] := by
  intro c hc
  cases hc

theorem breaks_cons {c : Char} (h : isBreak c = true) : Breaks (c :: cs) := by
  intro d hd
  cases hd
  exact h

theorem Breaks.append (h : Breaks as) (hbs : Breaks bs) : Breaks (as ++ bs) := by
  cases as with
  | nil => exact hbs
  | cons c as => exact breaks_cons (h c rfl)

/-- What breaks a lexeme off does so by its first character. -/
theorem Breaks.append_left (h : Breaks as) (hne : as ≠ []) (bs : List Char) :
    Breaks (as ++ bs) := by
  cases as with
  | nil => exact absurd rfl hne
  | cons c as => exact breaks_cons (h c rfl)

theorem spellsAlone_nil : SpellsAlone [] [] := fun _ => rfl

theorem SpellsAlone.spells (h : SpellsAlone cs ks) : Spells cs ks := fun rest _ => h rest

theorem spells_nil : Spells [] [] := spellsAlone_nil.spells

/-- What is spelled by two texts in a row, if the second begins with a break. -/
theorem Spells.append (ha : Spells as ks) (hb : Spells bs ls) (h : Breaks bs) :
    Spells (as ++ bs) (ks ++ ls) := by
  intro rest hrest
  rw [List.append_assoc, ha _ (h.append hrest), hb rest hrest, List.append_assoc]

/-- Behind a text that ends its own lexemes, any text spells its own. -/
theorem SpellsAlone.append (ha : SpellsAlone as ks) (hb : Spells bs ls) :
    Spells (as ++ bs) (ks ++ ls) := by
  intro rest hrest
  rw [List.append_assoc, ha, hb rest hrest, List.append_assoc]

theorem SpellsAlone.append_alone (ha : SpellsAlone as ks) (hb : SpellsAlone bs ls) :
    SpellsAlone (as ++ bs) (ks ++ ls) := by
  intro rest
  rw [List.append_assoc, ha, hb, List.append_assoc]

/-- A text that can stand behind any other: it begins with a break, unless it is empty. -/
structure Trails (cs : List Char) (ks : List Kind) : Prop where
  spells : Spells cs ks
  breaks : Breaks cs

/-- A text that can stand behind any other and before any other. -/
structure Closes (cs : List Char) (ks : List Kind) : Prop where
  alone : SpellsAlone cs ks
  breaks : Breaks cs
  ne_nil : cs ≠ []

theorem trails_nil : Trails [] [] := ⟨spells_nil, breaks_nil⟩

theorem Closes.trails (h : Closes cs ks) : Trails cs ks := ⟨h.alone.spells, h.breaks⟩

theorem Spells.trail (ha : Spells as ks) (hb : Trails bs ls) : Spells (as ++ bs) (ks ++ ls) :=
  ha.append hb.spells hb.breaks

/-- Texts that can stand behind any other can stand behind each other. -/
theorem Trails.append (ha : Trails as ks) (hb : Trails bs ls) : Trails (as ++ bs) (ks ++ ls) :=
  ⟨ha.spells.trail hb, ha.breaks.append hb.breaks⟩

/-- What can stand behind any text can be followed by more text that is read by itself. -/
theorem Closes.append (ha : Closes as ks) (hb : Spells bs ls) : Trails (as ++ bs) (ks ++ ls) :=
  ⟨ha.alone.append hb, ha.breaks.append_left ha.ne_nil bs⟩

theorem Closes.append_alone (ha : Closes as ks) (hb : SpellsAlone bs ls) :
    Closes (as ++ bs) (ks ++ ls) where
  alone := ha.alone.append_alone hb
  breaks := ha.breaks.append_left ha.ne_nil bs
  ne_nil := List.append_ne_nil_of_left_ne_nil ha.ne_nil bs

/-- What ends the last lexeme of a text makes it independent of what follows. -/
theorem Spells.close (ha : Spells as ks) (hb : Closes bs ls) :
    SpellsAlone (as ++ bs) (ks ++ ls) := by
  intro rest
  rw [List.append_assoc, ha _ (hb.breaks.append_left hb.ne_nil rest), hb.alone rest,
    List.append_assoc]

theorem Trails.close (ha : Trails as ks) (hb : Closes bs ls) : Closes (as ++ bs) (ks ++ ls) where
  alone := ha.spells.close hb
  breaks := ha.breaks.append hb.breaks
  ne_nil := List.append_ne_nil_of_right_ne_nil as hb.ne_nil

/-! ## Blanks, commas and marks -/

/-- White space that has been entered leaves the kinds of what follows it. -/
theorem kindsOf_scanFrom_blank (read cs : List Char) :
    kindsOf (scanner.scanFrom .blank read cs) = kindsIn cs := by
  induction cs generalizing read with
  | nil => rfl
  | cons c cs ih =>
    by_cases h : isBlank c = true
    · have hnext : scanner.next .blank c = some .blank := if_pos h
      have hstart : scanner.start c = .blank := if_pos h
      rw [scanner.scanFrom_cons_of_next hnext, ih]
      show kindsIn cs = kindsOf (scanner.scanFrom (scanner.start c) [c] cs)
      rw [hstart, ih]
    · have hnext : scanner.next .blank c = none := if_neg h
      rw [scanner.scanFrom_cons_of_end hnext, kindsOf_cons]
      exact if_pos rfl

theorem spellsAlone_blank {c : Char} (h : isBlank c = true) : SpellsAlone [c] [] := by
  intro rest
  have hstart : ScanState.start c = .blank := if_pos h
  show kindsOf (scanner.scanFrom (ScanState.start c) [c] rest) = _
  rw [hstart, kindsOf_scanFrom_blank, List.nil_append]

/-- White space spells nothing. -/
theorem spellsAlone_blanks (h : ∀ c ∈ cs, isBlank c = true) : SpellsAlone cs [] := by
  induction cs with
  | nil => exact spellsAlone_nil
  | cons c cs ih =>
    exact (spellsAlone_blank (h c List.mem_cons_self)).append_alone
      (ih fun d hd => h d (List.mem_cons_of_mem c hd))

/-- The state after more characters of a lexeme, if none of them ends it. -/
def ScanState.walk (st : ScanState) (cs : List Char) : Option ScanState := scanner.walk st cs

@[simp] theorem ScanState.walk_nil (st : ScanState) : st.walk [] = some st := rfl

theorem ScanState.walk_cons (st : ScanState) (c : Char) (cs : List Char) :
    st.walk (c :: cs) = (st.next c).bind fun st' => st'.walk cs := rfl

/-- One character more. -/
theorem ScanState.walk_cons_of_next {st st' : ScanState} {c : Char} (h : st.next c = some st')
    (cs : List Char) : st.walk (c :: cs) = st'.walk cs := by
  rw [walk_cons, h, Option.bind_some]

/-- A lexeme stays in a state that each of its characters leads back to. -/
theorem ScanState.walk_of_forall {st : ScanState} (h : ∀ c ∈ cs, st.next c = some st) :
    st.walk cs = some st := by
  induction cs with
  | nil => rfl
  | cons c cs ih =>
    rw [walk_cons_of_next (h c List.mem_cons_self)]
    exact ih fun d hd => h d (List.mem_cons_of_mem c hd)

theorem ScanState.walk_append {st st' : ScanState} (h : st.walk as = some st')
    (bs : List Char) : st.walk (as ++ bs) = st'.walk bs :=
  scanner.walk_append h bs

/-- A lexeme that ends where its states do spells its kind. -/
theorem kindsIn_lexeme (c : Char) (cs : List Char) (st : ScanState) {k : Kind} {rest : List Char}
    (h : (ScanState.start c).walk cs = some st)
    (hrest : ∀ d ∈ rest.head?, ScanState.next st d = none)
    (hk : ScanState.finish st (c :: cs) = k) (hblank : k ≠ .blank) :
    kindsIn (c :: cs ++ rest) = k :: kindsIn rest := by
  rw [kindsIn, scan, scanner.scan_append h hrest, kindsOf_cons]
  show (if ScanState.finish st (c :: cs) = .blank then _
    else ScanState.finish st (c :: cs) :: kindsIn rest) = _
  rw [hk, if_neg hblank]

theorem spellsAlone_comma : SpellsAlone [','] [.comma] := by
  intro rest
  exact kindsIn_lexeme ',' [] .comma rfl (fun _ _ => rfl) rfl (by simp)

/-- A mark of one character spells itself. -/
theorem spellsAlone_mark {m : Mark} (h : m ≠ .spread) :
    SpellsAlone m.text.toList [.token (.mark m)] := by
  intro rest
  cases m with
  | spread => exact absurd rfl h
  | _ => exact kindsIn_lexeme _ [] _ rfl (fun _ _ => rfl) rfl (by simp)

/-! ## Punctuation -/

/-- The characters that are breaks. -/
def breakChars : List Char :=
  [' ', '\t', '\n', '\r', '\uFEFF', ',', '!', '$', '&', ':', '=', '@', '|', '(', ')', '[', ']',
    '\x7b', '\x7d']

theorem mem_breakChars {c : Char} (h : isBreak c = true) : c ∈ breakChars := by
  simp only [isBreak, isBlank, Bool.or_eq_true, beq_iff_eq] at h
  -- white space and commas one by one, then the characters of marks
  rcases h with ((((((h | h) | h) | h) | h) | h) | h)
  all_goals first
    | (subst h; decide)
    | skip
  revert h
  unfold Mark.ofChar?
  split <;> simp [breakChars]

/-- What a character that is a break spells. -/
def breakKinds (c : Char) : List Kind :=
  match Mark.ofChar? c with
  | some m => [.token (.mark m)]
  | none => if c == ',' then [.comma] else []

/-- The mark that a character is, is written with that character. -/
theorem text_of_ofChar? {c : Char} {m : Mark} (h : Mark.ofChar? c = some m) :
    m.text.toList = [c] ∧ m ≠ .spread := by
  unfold Mark.ofChar? at h
  split at h <;> cases h <;> decide

/-- A character that is a break spells itself, whatever follows it. -/
theorem spellsAlone_break {c : Char} (h : isBreak c = true) : SpellsAlone [c] (breakKinds c) := by
  unfold breakKinds
  split
  · next m hm =>
    obtain ⟨htext, hne⟩ := text_of_ofChar? hm
    rw [← htext]
    exact spellsAlone_mark hne
  · next hm =>
    by_cases hc : c = ','
    · subst hc
      exact spellsAlone_comma
    · have hne : (c == ',') = false := by simpa using hc
      simp only [isBreak, hm, hne, Option.isSome_none, Bool.or_false] at h
      rw [hne]
      exact spellsAlone_blank h

/-- Punctuation and white space spell themselves, character by character. -/
theorem spellsAlone_breaks (h : ∀ c ∈ cs, isBreak c = true) :
    SpellsAlone cs (cs.flatMap breakKinds) := by
  induction cs with
  | nil => exact spellsAlone_nil
  | cons c cs ih =>
    exact (spellsAlone_break (h c List.mem_cons_self)).append_alone
      (ih fun d hd => h d (List.mem_cons_of_mem c hd))

/-- Breaks in a row can stand behind any text and before any other. -/
theorem closes_breaks (h : cs ≠ [] ∧ ∀ c ∈ cs, isBreak c = true) :
    Closes cs (cs.flatMap breakKinds) where
  alone := spellsAlone_breaks h.2
  breaks c hc := h.2 c (List.mem_of_mem_head? hc)
  ne_nil := h.1

/-! ## Texts in a row -/

/-- Texts that stand one behind the other. -/
theorem SpellsAlone.flatMap {α : Type} {xs : List α} {f : α → List Char} {g : α → List Kind}
    (h : ∀ x ∈ xs, SpellsAlone (f x) (g x)) : SpellsAlone (xs.flatMap f) (xs.flatMap g) := by
  induction xs with
  | nil => exact spellsAlone_nil
  | cons x xs ih =>
    rw [List.flatMap_cons, List.flatMap_cons]
    exact (h x List.mem_cons_self).append_alone (ih fun y hy => h y (List.mem_cons_of_mem x hy))

/-- Texts in a row spell what each of them spells. -/
theorem Trails.flatMap {α : Type} {xs : List α} {f : α → List Char} {g : α → List Kind}
    (h : ∀ x ∈ xs, Trails (f x) (g x)) : Trails (xs.flatMap f) (xs.flatMap g) := by
  induction xs with
  | nil => exact trails_nil
  | cons x xs ih =>
    rw [List.flatMap_cons, List.flatMap_cons]
    exact (h x List.mem_cons_self).append (ih fun y hy => h y (List.mem_cons_of_mem x hy))

/-- Texts with punctuation between them. -/
theorem spells_intercalate {sep : List Char} {ls : List Kind} (hsep : Closes sep ls)
    {texts : List (List Char)} {kinds : List (List Kind)}
    (h : List.Forall₂ Spells texts kinds) :
    Spells (sep.intercalate texts) (ls.intercalate kinds) := by
  induction h with
  | nil => exact spells_nil
  | @cons cs ks texts kinds hcs htexts ih =>
    cases htexts with
    | nil => simpa using hcs
    | cons hds htexts =>
      -- the separator ends the last lexeme of the text before it
      rw [List.intercalate_cons_cons, List.intercalate_cons_cons]
      exact (hcs.close hsep).append ih

/-! ## Names -/

/-- A break belongs to no name, to no number and to no string. -/
theorem break_facts {c : Char} (h : isBreak c = true) :
    isNameContinue c = false ∧ isNameStart c = false ∧ c.isDigit = false ∧ c ≠ '.' ∧
      Decimal.isExponentMark c = false ∧ c ≠ '"' := by
  have hall : (breakChars.all fun c => !isNameContinue c && !isNameStart c && !c.isDigit &&
      c != '.' && !Decimal.isExponentMark c && c != '"') = true := rfl
  have hc := List.all_eq_true.1 hall c (mem_breakChars h)
  simpa [and_assoc] using hc

theorem isBlank_eq_false_of_isBreak {c : Char} (h : isBreak c = false) : isBlank c = false := by
  simp only [isBreak, Bool.or_eq_false_iff] at h
  exact h.1.1

/-- Characters that a test tells apart are different. -/
theorem ne_of_test {test : Char → Bool} {c d : Char} (hc : test c = true)
    (hd : test d = false) : c ≠ d := by
  rintro rfl
  rw [hc] at hd
  cases hd

/-- No name begins with a digit. -/
theorem isDigit_eq_false_of_isNameStart {c : Char} (h : isNameStart c = true) :
    c.isDigit = false := by
  rw [← Bool.not_eq_true]
  intro hd
  -- letters and digits are intervals of code points, which do not meet
  delta isNameStart Char.isAlpha Char.isUpper Char.isLower at h
  simp only [Bool.or_eq_true, Bool.and_eq_true, decide_eq_true_eq, beq_iff_eq, ge_iff_le,
    UInt32.le_iff_toNat_le] at h
  simp only [Char.isDigit, Bool.and_eq_true, decide_eq_true_eq, ge_iff_le,
    UInt32.le_iff_toNat_le] at hd
  rcases h with (h | h) | rfl
  · simp at h hd
    omega
  · simp at h hd
    omega
  · simp at hd

/-- A name is entered by its first character. -/
theorem start_of_isNameStart {c : Char} (h : isNameStart c = true) :
    ScanState.start c = .name := by
  have hne : ∀ d : Char, isNameStart d = false → (c == d) = false :=
    fun d hd => beq_eq_false_iff_ne.2 (ne_of_test h hd)
  have hbreak : isBreak c = false := by
    rw [← Bool.not_eq_true]
    intro hc
    rw [(break_facts hc).2.1] at h
    cases h
  simp only [ScanState.start, isBlank_eq_false_of_isBreak hbreak, hne '#' (by decide),
    hne ',' (by decide), hne '.' (by decide), hne '-' (by decide), hne '0' (by decide),
    hne '"' (by decide), isDigit_eq_false_of_isNameStart h, h, if_true, Bool.false_eq_true,
    if_false]

/-- A name goes on as long as there are characters of names. -/
theorem walk_name (h : cs.all isNameContinue = true) :
    ScanState.name.walk cs = some .name :=
  ScanState.walk_of_forall fun c hc => if_pos (List.all_eq_true.1 h c hc)

/-- A name spells itself. -/
theorem spells_name (n : Name) : Spells n.text.toList [.token (.name n)] := by
  intro rest hrest
  have hn := n.isName_text
  have hfinish : ScanState.finish .name n.text.toList = .token (.name n) := by
    simp only [ScanState.finish, String.ofList_toList, Name.ofText?_text]
  cases hcs : n.text.toList with
  | nil => simp [hcs, isName] at hn
  | cons c cs =>
    simp only [hcs, isName, Bool.and_eq_true] at hn
    -- the first character enters the name, the others stay in it, and a break ends it
    refine kindsIn_lexeme c cs .name ?_ ?_ (by rw [← hcs]; exact hfinish) (by simp)
    · rw [start_of_isNameStart hn.1]
      exact walk_name hn.2
    · intro d hd
      exact if_neg (by simp [(break_facts (hrest d hd)).1])

/-! ## Reading texts -/

/-- A text is read as the kinds of its lexemes are. -/
theorem ofText_eq_ok_iff (text : String) (ds : List Definition) :
    ofText text = .ok ds ↔
      (document (Rule.tokenCount (kindsIn text.toList))).feed (kindsIn text.toList) =
        some (ds, []) := by
  rw [kindsIn, Rule.tokenCount_kindsOf, ← Rule.read_eq_ok_iff, ofText, ofLexemes]
  split
  · next hread => rw [hread, Except.ok.injEq, Except.ok.injEq]
  · next hread => rw [hread]; simp

end Document

end SchemaCatalog

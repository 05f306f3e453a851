/-
# What a repair inserts

The names that lack a separator cut the lexemes of a text into pieces, and a repair puts a
separator before each piece but the first.  So it only inserts, and where it does so can be
told in bytes.  Behind the separators that are put in, the automaton stands where it stood
without them, up to a memory that does not matter inside a list; so a second repair finds
nothing to insert.
-/
import SchemaCatalog.Proofs.LooseSeparators
import SchemaCatalog.Proofs.Splices

namespace SchemaCatalog.Document

open Lexeme (join)

/-! ## White space -/

/-- Whether a lexeme is white space.  A comment is none, although it says nothing either. -/
def isWhiteSpace (l : Lexeme) : Bool := l.kind = .blank && l.text.all isBlank

/-- The lexemes that are not white space. -/
def visible (ls : List Lexeme) : List Lexeme := ls.filter (!isWhiteSpace ·)

theorem visible_append (ls ms : List Lexeme) : visible (ls ++ ms) = visible ls ++ visible ms :=
  List.filter_append ls ms

namespace Implements

/-! ## Pieces -/

/-- The lexemes before the first name that lacks a separator, and those from each such name up
to the next. -/
def cutFrom (p : Passed) : List Lexeme → List Lexeme × List (List Lexeme)
  | [] => ([], [])
  | l :: ls =>
    match l.token? with
    | none => (l :: (cutFrom p ls).1, (cutFrom p ls).2)
    | some t =>
      let cut := cutFrom (p.pass t) ls
      if p.lacksSeparator t then ([], (l :: cut.1) :: cut.2) else (l :: cut.1, cut.2)

/-- The places of the names that lack a separator, in bytes, if the lexemes begin at an
offset. -/
def gapsFrom (p : Passed) (offset : Nat) : List Lexeme → List Nat
  | [] => []
  | l :: ls =>
    let next := offset + Text.byteSize l.text
    match l.token? with
    | none => gapsFrom p next ls
    | some t =>
      if p.lacksSeparator t then offset :: gapsFrom (p.pass t) next ls
      else gapsFrom (p.pass t) next ls

/-- The places in a text, in bytes, where separators are missing. -/
def gaps (text : String) : List Nat :=
  let ls := scan text.toList
  if ls.any Lexeme.isFlaw then [] else gapsFrom .nothing 0 ls

theorem cutFrom_of_none {l : Lexeme} (h : l.token? = none) (p : Passed) (ls : List Lexeme) :
    cutFrom p (l :: ls) = (l :: (cutFrom p ls).1, (cutFrom p ls).2) := by
  rw [cutFrom, h]

theorem cutFrom_of_lacks {l : Lexeme} {t : Token} (h : l.token? = some t) {p : Passed}
    (ht : p.lacksSeparator t = true) (ls : List Lexeme) :
    cutFrom p (l :: ls) =
      ([], (l :: (cutFrom (p.pass t) ls).1) :: (cutFrom (p.pass t) ls).2) := by
  rw [cutFrom, h]
  exact if_pos ht

theorem cutFrom_of_not_lacks {l : Lexeme} {t : Token} (h : l.token? = some t) {p : Passed}
    (ht : ¬p.lacksSeparator t = true) (ls : List Lexeme) :
    cutFrom p (l :: ls) =
      (l :: (cutFrom (p.pass t) ls).1, (cutFrom (p.pass t) ls).2) := by
  rw [cutFrom, h]
  exact if_neg ht

theorem missingFrom_of_none {l : Lexeme} (h : l.token? = none) (p : Passed) (ls : List Lexeme) :
    missingFrom p (l :: ls) = missingFrom p ls := by
  rw [missingFrom, h]

theorem missingFrom_of_lacks {l : Lexeme} {t : Token} (h : l.token? = some t) {p : Passed}
    (ht : p.lacksSeparator t = true) (ls : List Lexeme) :
    missingFrom p (l :: ls) = 1 + missingFrom (p.pass t) ls := by
  rw [missingFrom, h]
  dsimp only
  rw [if_pos ht]

theorem missingFrom_of_not_lacks {l : Lexeme} {t : Token} (h : l.token? = some t) {p : Passed}
    (ht : ¬p.lacksSeparator t = true) (ls : List Lexeme) :
    missingFrom p (l :: ls) = missingFrom (p.pass t) ls := by
  rw [missingFrom, h]
  dsimp only
  rw [if_neg ht, Nat.zero_add]

/-- The pieces make up the lexemes. -/
theorem flatten_cutFrom (p : Passed) (ls : List Lexeme) :
    (cutFrom p ls).1 ++ (cutFrom p ls).2.flatten = ls := by
  induction ls generalizing p with
  | nil => rfl
  | cons l ls ih =>
    cases ht : l.token? with
    | none => rw [cutFrom_of_none ht, List.cons_append, ih]
    | some t =>
      by_cases hlacks : p.lacksSeparator t = true
      · rw [cutFrom_of_lacks ht hlacks, List.nil_append, List.flatten_cons, List.cons_append, ih]
      · rw [cutFrom_of_not_lacks ht hlacks, List.cons_append, ih]

/-- A repair puts a separator before each piece but the first. -/
theorem repairFrom_eq (p : Passed) (ls : List Lexeme) :
    repairFrom p ls = (cutFrom p ls).1 ++ (cutFrom p ls).2.flatMap (separator ++ ·) := by
  induction ls generalizing p with
  | nil => rfl
  | cons l ls ih =>
    rw [repairFrom]
    cases ht : l.token? with
    | none => rw [cutFrom_of_none ht, List.cons_append, ← ih]
    | some t =>
      dsimp only
      split
      · next hlacks =>
        rw [cutFrom_of_lacks ht hlacks, List.nil_append, List.flatMap_cons, List.append_assoc,
          List.cons_append, ← ih]
      · next hlacks => rw [cutFrom_of_not_lacks ht hlacks, List.cons_append, ← ih]

/-- As many separators are missing as there are pieces behind the first. -/
theorem missingFrom_eq (p : Passed) (ls : List Lexeme) :
    missingFrom p ls = (cutFrom p ls).2.length := by
  induction ls generalizing p with
  | nil => rfl
  | cons l ls ih =>
    cases ht : l.token? with
    | none => rw [missingFrom_of_none ht, cutFrom_of_none ht, ih]
    | some t =>
      by_cases hlacks : p.lacksSeparator t = true
      · rw [missingFrom_of_lacks ht hlacks, cutFrom_of_lacks ht hlacks, List.length_cons, ih,
          Nat.add_comm]
      · rw [missingFrom_of_not_lacks ht hlacks, cutFrom_of_not_lacks ht hlacks, ih]

/-- The separators are missing at the borders of the pieces. -/
theorem gapsFrom_eq (p : Passed) (offset : Nat) (ls : List Lexeme) :
    gapsFrom p offset ls =
      Text.borders offset (join (cutFrom p ls).1) ((cutFrom p ls).2.map join) := by
  induction ls generalizing p offset with
  | nil => rfl
  | cons l ls ih =>
    rw [gapsFrom]
    cases ht : l.token? with
    | none => rw [cutFrom_of_none ht, Lexeme.join_cons, Text.borders_append, ← ih]
    | some t =>
      dsimp only
      split
      · next hlacks =>
        rw [cutFrom_of_lacks ht hlacks, List.map_cons, Text.borders_cons, Lexeme.join_nil,
          Text.byteSize_nil, Nat.add_zero, Lexeme.join_cons, Text.borders_append, ← ih]
      · next hlacks =>
        rw [cutFrom_of_not_lacks ht hlacks, Lexeme.join_cons, Text.borders_append, ← ih]

/-! ## Where pieces begin -/

/-- Lexemes that begin with a name which opens no definition, behind lexemes of which the last
token is a name as well. -/
def BeginsInList (before piece : List Lexeme) : Prop :=
  ∃ (n m : Name) (ls : List Lexeme), piece = ⟨n.text.toList, n.lexeme⟩ :: ls ∧
    n.text ∉ definitionWords ∧ (tokensOf before).getLast? = some (.name m)

/-- Pieces that all begin so, each behind all that comes before it. -/
def BeginInLists (before : List Lexeme) : List (List Lexeme) → Prop
  | [] => True
  | piece :: pieces => BeginsInList before piece ∧ BeginInLists (before ++ piece) pieces

/-- The text of a lexeme that is a name is that name. -/
theorem text_of_name {cs : List Char} {l : Lexeme} (hl : l ∈ scan cs) {n : Name}
    (h : l.kind = n.lexeme) : l.text = n.text.toList := by
  obtain ⟨st, hst⟩ := (scanner.bounded_scan cs).exists_finish hl
  exact (toList_of_finish (hst.symm.trans h)).symm

theorem tokensOf_concat (ls : List Lexeme) (l : Lexeme) :
    tokensOf (ls ++ [l]) = tokensOf ls ++ l.token?.toList := by
  rw [tokensOf, List.filterMap_append, List.filterMap_cons, List.filterMap_nil]
  cases l.token? <;> rfl

/-- Where a separator may be missing, the last token is a name. -/
theorem exists_last_of_place {ts : List Token} (h : (passTokens ts).place = .afterName) :
    ∃ m, ts.getLast? = some (.name m) := by
  rcases List.eq_nil_or_concat ts with rfl | ⟨ts, t, rfl⟩
  · cases h
  · rw [List.concat_eq_append] at h ⊢
    rw [passTokens_concat] at h
    have hname := Passed.isName_of_place_pass h
    cases t with
    | name m => exact ⟨m, List.getLast?_concat⟩
    | mark | int | float | string => cases hname

/-- Each piece but the first begins with a name behind a name. -/
theorem beginInLists_cutFrom (before : List Lexeme) {ls : List Lexeme}
    (hls : ∀ l ∈ ls, ∀ n : Name, l.kind = n.lexeme → l.text = n.text.toList) :
    BeginInLists (before ++ (cutFrom (passTokens (tokensOf before)) ls).1)
      (cutFrom (passTokens (tokensOf before)) ls).2 := by
  -- the automaton knows of the lexemes before what their tokens lead to
  induction ls generalizing before with
  | nil => trivial
  | cons l ls ih =>
    rw [List.forall_mem_cons] at hls
    have htail := ih (before ++ [l]) hls.2
    rw [tokensOf_concat, List.append_assoc, List.singleton_append] at htail
    cases ht : l.token? with
    | none =>
      rw [ht, Option.toList_none, List.append_nil] at htail
      rw [cutFrom_of_none ht]
      exact htail
    | some t =>
      rw [ht, Option.toList_some, passTokens_concat] at htail
      by_cases hlacks : (passTokens (tokensOf before)).lacksSeparator t = true
      · obtain ⟨n, rfl, hplace, hn⟩ := exists_name_of_lacksSeparator hlacks
        obtain ⟨m, hm⟩ := exists_last_of_place hplace
        have hkind : l.kind = n.lexeme := kind_of_token? ht
        have hl : l = ⟨n.text.toList, n.lexeme⟩ := by rw [← hls.1 n hkind, ← hkind]
        rw [cutFrom_of_lacks ht hlacks, List.append_nil]
        exact ⟨⟨n, m, _, congrArg (· :: _) hl, hn, hm⟩, htail⟩
      · rw [cutFrom_of_not_lacks ht hlacks]
        exact htail

/-- No piece that begins with a name is empty. -/
theorem BeginInLists.join_ne_nil {before : List Lexeme} {pieces : List (List Lexeme)}
    (h : BeginInLists before pieces) : ∀ cs ∈ pieces.map join, cs ≠ [] := by
  induction pieces generalizing before with
  | nil => exact fun cs hcs => absurd hcs List.not_mem_nil
  | cons piece pieces ih =>
    obtain ⟨⟨n, m, ls, rfl, -⟩, htail⟩ := h
    refine List.forall_mem_cons.2 ⟨?_, ih htail⟩
    intro hnil
    have hn : n.text.toList = [] := (List.append_eq_nil_iff.1 hnil).1
    exact n.text_ne_empty (String.toList_eq_nil_iff.1 hn)

/-! ## Repaired texts -/

theorem visible_flatMap_separator (pieces : List (List Lexeme)) :
    visible (pieces.flatMap (separator ++ ·)) =
      pieces.flatMap fun piece => ⟨['&'], Mark.ampersand.lexeme⟩ :: visible piece := by
  induction pieces with
  | nil => rfl
  | cons piece pieces ih =>
    rw [List.flatMap_cons, visible_append, visible_append, ih]
    rfl

theorem join_flatten (pieces : List (List Lexeme)) :
    join pieces.flatten = (pieces.map join).flatten := by
  induction pieces with
  | nil => rfl
  | cons piece pieces ih => rw [List.flatten_cons, Lexeme.join_append, ih, List.map_cons,
      List.flatten_cons]

theorem join_flatMap_separator (pieces : List (List Lexeme)) :
    join (pieces.flatMap (separator ++ ·)) =
      (pieces.map join).flatMap ("& ".toList ++ ·) := by
  induction pieces with
  | nil => rfl
  | cons piece pieces ih =>
    rw [List.flatMap_cons, Lexeme.join_append, Lexeme.join_append, ih]
    rfl

/-- A text that is cut into pieces, and what comes of putting a separator and a space before
each piece but the first. -/
structure Inserts (text repaired : String) (offsets : List Nat) (first : List Lexeme)
    (pieces : List (List Lexeme)) : Prop where
  /-- The pieces make up the lexemes of the text. -/
  scan_text : scan text.toList = first ++ pieces.flatten
  /-- Each piece but the first begins with a name that opens no definition and directly follows
  another name. -/
  begin_in_lists : BeginInLists first pieces
  /-- The offsets are those at which these pieces begin, in bytes. -/
  offsets_eq : offsets = Text.borders 0 (join first) (pieces.map join)
  /-- The offsets come one after the other. -/
  increasing : offsets.Pairwise (· < ·)
  /-- Cutting the text at the offsets goes wrong nowhere. -/
  splice_eq : Text.splice? "& ".toList text.toList offsets = some repaired.toList
  /-- Without what is put in, the text is left. -/
  toList_text : text.toList = join first ++ (pieces.map join).flatten
  /-- What is put in stands before the pieces, and nothing else is changed. -/
  toList_repaired :
    repaired.toList = join first ++ (pieces.map join).flatMap ("& ".toList ++ ·)
  /-- White space aside, only separators are added to the lexemes of the text. -/
  visible_repaired : visible (scan repaired.toList) = visible first ++
    pieces.flatMap fun piece => ⟨['&'], Mark.ampersand.lexeme⟩ :: visible piece

/-- The lexemes of both texts tell all the rest. -/
theorem Inserts.of_scan {text repaired : String} {first : List Lexeme}
    {pieces : List (List Lexeme)} (htext : scan text.toList = first ++ pieces.flatten)
    (hbegin : BeginInLists first pieces)
    (hrepaired : scan repaired.toList = first ++ pieces.flatMap (separator ++ ·)) :
    Inserts text repaired (Text.borders 0 (join first) (pieces.map join)) first pieces := by
  have htoList : text.toList = join first ++ (pieces.map join).flatten := by
    rw [← join_scan text.toList, htext, Lexeme.join_append, join_flatten]
  have htoList' : repaired.toList =
      join first ++ (pieces.map join).flatMap ("& ".toList ++ ·) := by
    rw [← join_scan repaired.toList, hrepaired, Lexeme.join_append, join_flatMap_separator]
  refine ⟨htext, hbegin, rfl, Text.pairwise_borders _ _ hbegin.join_ne_nil, ?_, htoList, htoList',
    ?_⟩
  · rw [htoList, htoList', Text.splice?_borders]
  · rw [hrepaired, visible_append, visible_flatMap_separator]

/-- A text that is not cut is left as it is. -/
theorem Inserts.eq_of_eq_nil {text repaired : String} {offsets : List Nat} {first : List Lexeme}
    {pieces : List (List Lexeme)} (h : Inserts text repaired offsets first pieces)
    (hpieces : pieces = []) : repaired = text := by
  subst hpieces
  exact String.toList_inj.1 (h.toList_repaired.trans h.toList_text.symm)

/-- The lexemes of a repaired text are the repaired lexemes of the text. -/
theorem scan_repair {text : String} (h : ¬(scan text.toList).any Lexeme.isFlaw = true) :
    scan (repair text).toList = repairFrom .nothing (scan text.toList) := by
  rw [repair, if_neg h, String.toList_ofList, scan_join_repairFrom]

/-- A repair makes no flaws in a text, and mends none. -/
theorem any_isFlaw_repair (text : String) :
    (scan (repair text).toList).any Lexeme.isFlaw = (scan text.toList).any Lexeme.isFlaw := by
  by_cases hflaw : (scan text.toList).any Lexeme.isFlaw = true
  · rw [repair, if_pos hflaw]
  · rw [Bool.eq_iff_iff, any_isFlaw_iff, any_isFlaw_iff, scan_repair hflaw, kindsOf_repairFrom,
      flawCount_repairKinds]

/-- **What a repair does.**  It only puts separators into a text, at the places where they are
missing, and none into a text with a flaw.  Where none is put in, the text is left as it is.
The repaired text has a flaw only if the text has one. -/
theorem repair_exact (text : String) :
    ∃ first pieces, Inserts text (repair text) (gaps text) first pieces ∧
      pieces.length = missing text ∧
      ((scan text.toList).any Lexeme.isFlaw = true → pieces = []) ∧
      (pieces = [] → repair text = text) ∧
      (scan (repair text).toList).any Lexeme.isFlaw = (scan text.toList).any Lexeme.isFlaw := by
  by_cases hflaw : (scan text.toList).any Lexeme.isFlaw = true
  · -- a text with a flaw is one piece
    have hrepair : repair text = text := by rw [repair, if_pos hflaw]
    have hgaps : gaps text = [] := by rw [gaps, if_pos hflaw]
    have hmissing : missing text = 0 := by rw [missing, if_pos hflaw]
    have hscan : scan text.toList = scan text.toList ++ [] := (List.append_nil _).symm
    have hbegin : BeginInLists (scan text.toList) [] := trivial
    have hinserts : Inserts text text (gaps text) (scan text.toList) [] :=
      hgaps ▸ Inserts.of_scan hscan hbegin hscan
    exact ⟨scan text.toList, [], hrepair.symm ▸ hinserts, hmissing.symm, fun _ => rfl,
      fun _ => hrepair, any_isFlaw_repair text⟩
  · have hscan := scan_repair hflaw
    have hgaps : gaps text = Text.borders 0 (join (cutFrom .nothing (scan text.toList)).1)
        ((cutFrom .nothing (scan text.toList)).2.map join) := by
      rw [gaps, if_neg hflaw, gapsFrom_eq]
    have hbegin : BeginInLists (cutFrom .nothing (scan text.toList)).1
        (cutFrom .nothing (scan text.toList)).2 :=
      beginInLists_cutFrom [] fun l hl n => text_of_name hl
    have hinserts := Inserts.of_scan (flatten_cutFrom .nothing (scan text.toList)).symm hbegin
      (hscan.trans (repairFrom_eq .nothing (scan text.toList)))
    rw [← hgaps] at hinserts
    refine ⟨_, _, hinserts, ?_, fun h => absurd h hflaw, hinserts.eq_of_eq_nil,
      any_isFlaw_repair text⟩
    rw [missing, if_neg hflaw, missingFrom_eq]

/-- Two separators are put in behind a character of two bytes, the first of them behind a
comma. -/
theorem repair_exact_of_two_gaps :
    gaps "# é\ntype T implements A,B C" = [25, 27] ∧
      repair "# é\ntype T implements A,B C" = "# é\ntype T implements A,& B & C" ∧
      ∃ first pieces, Inserts "# é\ntype T implements A,B C"
        (repair "# é\ntype T implements A,B C") [25, 27] first pieces ∧ pieces.length = 2 := by
  have hgaps : gaps "# é\ntype T implements A,B C" = [25, 27] := by decide +kernel
  have hmissing : missing "# é\ntype T implements A,B C" = 2 := by decide +kernel
  obtain ⟨first, pieces, hinserts, hlength, -⟩ := repair_exact "# é\ntype T implements A,B C"
  exact ⟨hgaps, by decide +kernel, first, pieces, hgaps ▸ hinserts, hlength.trans hmissing⟩

end Implements

open Implements

/-! ## Repairing twice -/

/-- What is known agrees with itself. -/
theorem Agrees.refl (p : Passed) : Agrees p p := ⟨rfl, rfl, fun _ => rfl⟩

theorem Agrees.symm {p q : Passed} (h : Agrees p q) : Agrees q p :=
  ⟨h.place.symm, h.last.symm, fun hq => (h.beforeLast (h.place.symm.trans hq)).symm⟩

/-- Behind a separator that is put in, the next name is passed as it was without it. -/
theorem Agrees.pass_separator {p q : Passed} (h : Agrees p q) {t : Token}
    (ht : p.lacksSeparator t = true) :
    Agrees (p.pass t) ((q.pass (.mark .ampersand)).pass t) := by
  obtain ⟨n, rfl, hplace, hn⟩ := exists_name_of_lacksSeparator ht
  have hq : (q.pass (.mark .ampersand)).place = .expectingName := by
    show (if q.place = .outside then Place.outside else .expectingName) = .expectingName
    rw [h.place, hplace]
    rfl
  exact (Pending.pass ⟨hq, hplace⟩ hn).symm

/-- Before a separator none is missing. -/
theorem missingFrom_separator (p : Passed) (ls : List Lexeme) :
    missingFrom p (separator ++ ls) = missingFrom (p.pass (.mark .ampersand)) ls :=
  (missingFrom_of_not_lacks (l := ⟨['&'], Mark.ampersand.lexeme⟩) rfl nofun _).trans
    (missingFrom_of_none rfl _ ls)

/-- In repaired lexemes no separator is missing. -/
theorem missingFrom_repairFrom {p q : Passed} (h : Agrees p q) (ls : List Lexeme) :
    missingFrom q (repairFrom p ls) = 0 := by
  -- both runs agree, except from a separator that was put in up to the name behind it
  induction ls generalizing p q with
  | nil => rfl
  | cons l ls ih =>
    rw [repairFrom]
    cases ht : l.token? with
    | none => exact (missingFrom_of_none ht q _).trans (ih h)
    | some t =>
      dsimp only
      split
      · next hlacks =>
        have hmark := Passed.lacksSeparator_of_place (q.place_pass_mark .ampersand) t
        rw [missingFrom_separator, missingFrom_of_not_lacks ht (Bool.eq_false_iff.1 hmark)]
        exact ih (h.pass_separator hlacks)
      · next hlacks =>
        rw [missingFrom_of_not_lacks ht (by rwa [h.lacksSeparator_eq])]
        exact ih (h.pass t)

/-- A text in which no separator is missing is left as it is. -/
theorem repair_of_missing {text : String} (h : missing text = 0) :
    gaps text = [] ∧ repair text = text := by
  by_cases hflaw : (scan text.toList).any Lexeme.isFlaw = true
  · exact ⟨if_pos hflaw, if_pos hflaw⟩
  · rw [missing, if_neg hflaw, missingFrom_eq] at h
    have hpieces : (cutFrom .nothing (scan text.toList)).2 = [] := List.length_eq_zero_iff.1 h
    have hfirst := flatten_cutFrom .nothing (scan text.toList)
    rw [hpieces, List.flatten_nil, List.append_nil] at hfirst
    constructor
    · rw [gaps, if_neg hflaw, gapsFrom_eq, hpieces]
      rfl
    · rw [repair, if_neg hflaw, repairFrom_eq, hpieces, List.flatMap_nil, List.append_nil, hfirst,
        join_scan, String.ofList_toList]

/-- **Repairing twice.**  In a repaired text no separator is missing, and another repair leaves
it as it is. -/
theorem repair_repair (text : String) :
    missing (repair text) = 0 ∧ gaps (repair text) = [] ∧ repair (repair text) = repair text := by
  have hmissing : missing (repair text) = 0 := by
    by_cases hflaw : (scan text.toList).any Lexeme.isFlaw = true
    · rw [missing, if_pos (by rwa [any_isFlaw_repair])]
    · rw [missing, if_neg (by rwa [any_isFlaw_repair]), scan_repair hflaw]
      exact missingFrom_repairFrom (.refl .nothing) _
  exact ⟨hmissing, repair_of_missing hmissing⟩

end SchemaCatalog.Document
